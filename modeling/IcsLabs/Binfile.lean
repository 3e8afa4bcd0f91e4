-- The binary file of a program: binfile of lab5 (y64asm.c) writes the bytes of the
-- lines into an image and the image into a file, load_binfile of lab4 (y64sim.c)
-- reads the file into the memory of the simulator.
import IcsLabs.Asm

open ics_labs.byte_words ics_labs.memory ics_labs.ctext

namespace ics_labs.asm

open LineType

/-! ## The file -/

/-- `image[addr + i] = codes[i]` for the first `n` bytes of a line. A write outside the
`size` bytes of the image is a fault. -/
def copyCodes (size : Nat) (bin : Bin) : Nat → Contents → Except Fault Contents
  | 0, image => .ok image
  | n + 1, image => do
    let image ← copyCodes size bin n image
    let x := (bin.addr + BitVec.ofNat 64 n).toNat
    if x < size then .ok (Function.update image x (bin.codes n)) else .error .crash

/-- A line in the loop of `binfile`: the image and `bytes_sum`, an `int`. -/
def writeLine (size : Nat) (s : Contents × BitVec 32) (line : Line) :
    Except Fault (Contents × BitVec 32) :=
  if line.type = TYPE_INS then do
    let image ← copyCodes size line.y64bin line.y64bin.bytes s.1
    .ok (image, if line.y64bin.bytes ≠ 0
      then (line.y64bin.addr + BitVec.ofNat 64 line.y64bin.bytes).setWidth 32 else s.2)
  else .ok s

/-- `granted n` says that `malloc` gives `n` bytes. When it gives none, or `fwrite` reads
behind the image, that is a fault too. -/
def binfile (granted : Nat → Bool) (st : Asm) : Except Fault (List Byte) := do
  let size := st.vmaddr.toNat
  if size = 0 ∨ granted size then
    let (image, bytes_sum) ← st.lines.foldlM (writeLine size) (fun _ => 0, 0)
    let n := (bytes_sum.signExtend 64).toNat
    if n ≤ size then .ok ((List.range n).map image) else .error .crash
  else .error .crash

/-- The assembler, up to its binary file. -/
def yas (heap : Nat → Text) (granted : Nat → Bool) (input : Text) : Except Fault (List Byte) := do
  let st ← assemble heap input
  let st ← relocate st
  binfile granted st

def MEM_SIZE : Nat := 8192

def init_mem : Mem := { len := MEM_SIZE, contents := fun _ => 0, len_lt := by decide }

/-- `fread` reads as much of the file as the memory takes, and the end of the file is seen
only when the file is shorter than the memory. -/
def load_binfile (m : Mem) (f : List Byte) : Option Mem :=
  if f.length < m.len then some { m with contents := fun x => (f[x]?).getD (m.contents x) }
  else none

/-! ## The lines that have bytes -/

def Emits (line : Line) : Prop := line.type = TYPE_INS ∧ line.y64bin.bytes ≠ 0

instance (line : Line) : Decidable (Emits line) := inferInstanceAs (Decidable (_ ∧ _))

/-- The lines that put bytes into the image, in the order of the source. -/
def emitted (ls : List Line) : List Bin := (ls.filter Emits).map Line.y64bin

def Bin.start (b : Bin) : Nat := b.addr.toNat

def Bin.stop (b : Bin) : Nat := b.addr.toNat + b.bytes

/-- The address is one of those that the line occupies. -/
def Bin.Covers (b : Bin) (x : Nat) : Prop := b.start ≤ x ∧ x < b.stop

def Bin.Apart (a b : Bin) : Prop := a.stop ≤ b.start ∨ b.stop ≤ a.start

/-- The lines have places of their own in the memory of the simulator. -/
structure Placed (bs : List Bin) : Prop where
  inside : ∀ b ∈ bs, b.stop ≤ MEM_SIZE
  apart : bs.Pairwise Bin.Apart

/-- The end of the last line that has bytes. -/
def lastStop (bs : List Bin) : Nat := (bs.getLast?.map Bin.stop).getD 0

/-- The contents are those of the lines, and 0 elsewhere. -/
structure Holds (bs : List Bin) (c : Contents) : Prop where
  codes : ∀ b ∈ bs, ∀ i < b.bytes, c (b.start + i) = b.codes i
  rest : ∀ x, (∀ b ∈ bs, ¬b.Covers x) → c x = 0

/-! ## The loop over the lines -/

theorem bin_index {b : Bin} (h : b.stop ≤ MEM_SIZE) {i : Nat} (hi : i ≤ b.bytes) :
    (b.addr + BitVec.ofNat 64 i).toNat = b.start + i := by
  unfold Bin.stop MEM_SIZE at h
  unfold Bin.start
  rw [BitVec.toNat_add, BitVec.toNat_ofNat, Nat.mod_eq_of_lt (show i < 2 ^ 64 by omega),
    Nat.mod_eq_of_lt (by omega)]

/-- The image with the first `n` bytes of the line in their places. -/
def overlay (b : Bin) (n : Nat) (image : Contents) : Contents := fun x =>
  if b.start ≤ x ∧ x < b.start + n then b.codes (x - b.start) else image x

theorem overlay_covered {b : Bin} {image : Contents} {i : Nat} (h : i < b.bytes) :
    overlay b b.bytes image (b.start + i) = b.codes i := by
  unfold overlay
  rw [if_pos (by omega), Nat.add_sub_cancel_left]

theorem overlay_other {b : Bin} {image : Contents} {x : Nat} (h : ¬b.Covers x) :
    overlay b b.bytes image x = image x := by
  unfold overlay
  exact if_neg h

/-- The copy of a line succeeds if and only if the image is large enough. -/
theorem copyCodes_eq {size : Nat} {b : Bin} {image : Contents} (h : b.stop ≤ MEM_SIZE) {n : Nat}
    (hn : n ≤ b.bytes) : copyCodes size b n image =
      if n = 0 ∨ b.start + n ≤ size then .ok (overlay b n image) else .error .crash := by
  induction n with
  | zero =>
    rw [copyCodes, if_pos (Or.inl rfl)]
    congr 1
    funext x
    unfold overlay
    rw [if_neg (by omega)]
  | succ n ih =>
    rw [copyCodes, ih (by omega)]
    by_cases hs : n = 0 ∨ b.start + n ≤ size
    · rw [if_pos hs]
      change (if (b.addr + BitVec.ofNat 64 n).toNat < size then _ else _) = _
      rw [bin_index h (by omega)]
      by_cases hlt : b.start + n < size
      · rw [if_pos hlt, if_pos (by omega)]
        congr 1
        funext x
        unfold overlay
        by_cases hx : x = b.start + n
        · subst hx
          rw [Function.update_self, if_pos (by omega), Nat.add_sub_cancel_left]
        · rw [Function.update_of_ne hx]
          by_cases hin : b.start ≤ x ∧ x < b.start + n
          · rw [if_pos hin, if_pos (by omega)]
          · rw [if_neg hin, if_neg (by omega)]
      · rw [if_neg hlt, if_neg (by omega)]
    · rw [if_neg hs, if_neg (by omega)]
      rfl

/-- A line without bytes leaves everything as it is. -/
theorem writeLine_skip {size : Nat} {s : Contents × BitVec 32} {line : Line} (h : ¬Emits line) :
    writeLine size s line = .ok s := by
  unfold writeLine
  split
  · rename_i ht
    have hb : line.y64bin.bytes = 0 := by
      by_contra hb
      exact h ⟨ht, hb⟩
    simp only [hb]
    rfl
  · rfl

theorem writeLine_emits {size : Nat} {s : Contents × BitVec 32} {line : Line} (h : Emits line)
    (hin : line.y64bin.stop ≤ MEM_SIZE) : writeLine size s line =
      if line.y64bin.stop ≤ size then
        .ok (overlay line.y64bin line.y64bin.bytes s.1, BitVec.ofNat 32 line.y64bin.stop)
      else .error .crash := by
  have hstop : (line.y64bin.addr + BitVec.ofNat 64 line.y64bin.bytes).setWidth 32 =
      BitVec.ofNat 32 line.y64bin.stop := by
    apply BitVec.eq_of_toNat_eq
    rw [BitVec.toNat_setWidth, bin_index hin (Nat.le_refl _), BitVec.toNat_ofNat]
    rfl
  unfold writeLine
  rw [if_pos h.1, copyCodes_eq hin (Nat.le_refl _), if_pos h.2, hstop]
  have hiff : (line.y64bin.bytes = 0 ∨ line.y64bin.start + line.y64bin.bytes ≤ size) ↔
      line.y64bin.stop ≤ size := by
    have := h.2
    unfold Bin.stop Bin.start
    omega
  simp only [hiff]
  split <;> rfl

theorem emitted_cons (l : Line) (ls : List Line) :
    emitted (l :: ls) = if Emits l then l.y64bin :: emitted ls else emitted ls := by
  unfold emitted
  rw [List.filter_cons]
  by_cases h : Emits l
  · simp [h]
  · simp [h]

/-- The image with the bytes of all lines, one line after the other. -/
def overlayAll (bs : List Bin) (image : Contents) : Contents :=
  bs.foldl (fun c b => overlay b b.bytes c) image

theorem overlayAll_cons (b : Bin) (bs : List Bin) (image : Contents) :
    overlayAll (b :: bs) image = overlayAll bs (overlay b b.bytes image) := rfl

/-- The loop gets through if and only if every line fits into the image. -/
theorem fold_lines {size : Nat} {ls : List Line} (h : ∀ b ∈ emitted ls, b.stop ≤ MEM_SIZE)
    (s : Contents × BitVec 32) : ls.foldlM (writeLine size) s =
      if ∀ b ∈ emitted ls, b.stop ≤ size then
        .ok (overlayAll (emitted ls) s.1,
          ((emitted ls).getLast?.map fun b => BitVec.ofNat 32 b.stop).getD s.2)
      else .error .crash := by
  induction ls generalizing s with
  | nil => rfl
  | cons l ls ih =>
    rw [List.foldlM_cons]
    rw [emitted_cons] at h ⊢
    by_cases he : Emits l
    · rw [if_pos he] at h ⊢
      simp only [List.mem_cons, forall_eq_or_imp] at h ⊢
      rw [writeLine_emits he h.1]
      by_cases hs : l.y64bin.stop ≤ size
      · rw [if_pos hs]
        change ls.foldlM (writeLine size) (overlay l.y64bin l.y64bin.bytes s.1, _) = _
        rw [ih h.2, List.getLast?_cons]
        simp only [hs, true_and, overlayAll_cons, Option.map_some, Option.getD_some]
        cases (emitted ls).getLast? <;> rfl
      · rw [if_neg hs, if_neg (fun hall => hs hall.1)]
        rfl
    · rw [if_neg he] at h ⊢
      rw [writeLine_skip he]
      exact ih h s

/-- Lines with places of their own keep their bytes. -/
theorem overlayAll_holds {bs : List Bin} (h : bs.Pairwise Bin.Apart) (image : Contents) :
    (∀ b ∈ bs, ∀ i < b.bytes, overlayAll bs image (b.start + i) = b.codes i) ∧
      ∀ x, (∀ b ∈ bs, ¬b.Covers x) → overlayAll bs image x = image x := by
  induction bs generalizing image with
  | nil => exact ⟨by simp, fun x _ => rfl⟩
  | cons b bs ih =>
    obtain ⟨hb, hbs⟩ := List.pairwise_cons.mp h
    obtain ⟨hin, hout⟩ := ih hbs (overlay b b.bytes image)
    rw [overlayAll_cons]
    refine ⟨?_, fun x hx => ?_⟩
    · rintro c hc i hi
      rcases List.mem_cons.mp hc with rfl | hc
      · -- the lines behind it are somewhere else
        rw [hout, overlay_covered hi]
        rintro d hd ⟨h1, h2⟩
        have := hb d hd
        unfold Bin.Apart Bin.stop at this
        unfold Bin.stop at h2
        unfold Bin.start at this h1 h2
        omega
      · exact hin c hc i hi
    · rw [hout x fun c hc => hx c (List.mem_cons_of_mem b hc), overlay_other (hx b List.mem_cons_self)]

/-! ## The law -/

/-- The sizes that `binfile` takes from the last line and from `vmaddr` are enough. -/
structure SizesFit (granted : Nat → Bool) (st : Asm) : Prop where
  size : st.vmaddr.toNat = 0 ∨ granted st.vmaddr.toNat = true
  room : ∀ b ∈ emitted st.lines, b.stop ≤ st.vmaddr.toNat
  last : lastStop (emitted st.lines) < MEM_SIZE
  cut : ∀ b ∈ emitted st.lines, ∀ i < b.bytes, lastStop (emitted st.lines) ≤ b.start + i →
    b.codes i = 0

/-- The end of the last line is an `int`. -/
theorem lastStop_int {bs : List Bin} (h : Placed bs) :
    (((bs.getLast?.map fun b => BitVec.ofNat 32 b.stop).getD 0).signExtend 64).toNat =
      lastStop bs := by
  unfold lastStop
  cases hl : bs.getLast? with
  | none => rfl
  | some b =>
    have hb := h.inside b (List.mem_of_getLast? hl)
    unfold MEM_SIZE at hb
    have hpos : (BitVec.ofNat 32 b.stop).msb = false := by
      rw [BitVec.msb_eq_false_iff_two_mul_lt, BitVec.toNat_ofNat]
      omega
    rw [Option.map_some, Option.map_some, Option.getD_some, Option.getD_some,
      BitVec.signExtend_eq_setWidth_of_msb_false hpos, BitVec.toNat_setWidth, BitVec.toNat_ofNat]
    omega

theorem lastStop_le {bs : List Bin} {n : Nat} (h : ∀ b ∈ bs, b.stop ≤ n) : lastStop bs ≤ n := by
  unfold lastStop
  cases hl : bs.getLast? with
  | none => exact Nat.zero_le n
  | some b => exact h b (List.mem_of_getLast? hl)

/-- What `binfile` writes for lines with places of their own. -/
theorem binfile_eq {granted : Nat → Bool} {st : Asm} (h : Placed (emitted st.lines)) :
    binfile granted st =
      if (st.vmaddr.toNat = 0 ∨ granted st.vmaddr.toNat = true) ∧
          ∀ b ∈ emitted st.lines, b.stop ≤ st.vmaddr.toNat then
        .ok ((List.range (lastStop (emitted st.lines))).map
          (overlayAll (emitted st.lines) fun _ => 0))
      else .error .crash := by
  unfold binfile
  simp only [fold_lines h.inside]
  by_cases hsize : st.vmaddr.toNat = 0 ∨ granted st.vmaddr.toNat = true
  · by_cases hroom : ∀ b ∈ emitted st.lines, b.stop ≤ st.vmaddr.toNat
    · rw [if_pos hsize, if_pos hroom, if_pos ⟨hsize, hroom⟩]
      change (if _ ≤ _ then _ else _) = _
      rw [lastStop_int h, if_pos (lastStop_le hroom)]
    · rw [if_pos hsize, if_neg hroom, if_neg (fun hb => hroom hb.2)]
      rfl
  · rw [if_neg hsize, if_neg (fun hb => hsize hb.1)]

/-- A file that holds the first `n` bytes of an image, loaded. -/
theorem load_binfile_eq (n : Nat) (image : Contents) :
    load_binfile init_mem ((List.range n).map image) =
      if n < MEM_SIZE then some { init_mem with contents := fun x => if x < n then image x else 0 }
      else none := by
  have hbytes : (fun x => (((List.range n).map image)[x]?).getD (init_mem.contents x)) =
      fun x => if x < n then image x else 0 := by
    funext x
    by_cases hx : x < n
    · simp [hx]
    · simp [hx, init_mem]
  unfold load_binfile
  rw [List.length_map, List.length_range]
  simp only [hbytes]
  rfl

/-- The simulator gets the program: the assembler writes a file without a fault, the file is
loaded, and the memory has the bytes of the lines and is 0 elsewhere. -/
def Arrives (heap : Nat → Text) (granted : Nat → Bool) (input : Text) (bs : List Bin) : Prop :=
  ∃ f m, yas heap granted input = .ok f ∧ load_binfile init_mem f = some m ∧ Holds bs m.contents

/-- The program arrives in the simulator if and only if the sizes fit. -/
theorem the_program_arrives_iff {heap : Nat → Text} {granted : Nat → Bool} {input : Text}
    {st st' : Asm} (hst : assemble heap input = .ok st) (hst' : relocate st = .ok st')
    (h : Placed (emitted st'.lines)) :
    Arrives heap granted input (emitted st'.lines) ↔ SizesFit granted st' := by
  have hyas : yas heap granted input = binfile granted st' := by
    unfold yas
    rw [hst]
    change (relocate st >>= binfile granted) = _
    rw [hst']
    rfl
  obtain ⟨hin, hout⟩ := overlayAll_holds h.apart fun _ => 0
  unfold Arrives
  rw [hyas, binfile_eq h]
  constructor
  · rintro ⟨f, m, hf, hm, hholds⟩
    split at hf
    · rename_i hfit
      cases hf
      rw [load_binfile_eq] at hm
      split at hm
      · rename_i hlast
        cases hm
        refine ⟨hfit.1, hfit.2, hlast, fun b hb i hi hle => ?_⟩
        have hcode := hholds.codes b hb i hi
        simp only [if_neg (Nat.not_lt.mpr hle)] at hcode
        exact hcode.symm
      · cases hm
    · cases hf
  · rintro ⟨hsize, hroom, hlast, hcut⟩
    rw [if_pos ⟨hsize, hroom⟩]
    refine ⟨_, _, rfl, by rw [load_binfile_eq, if_pos hlast], ?_, ?_⟩
    · intro b hb i hi
      by_cases hlt : b.start + i < lastStop (emitted st'.lines)
      · simp only [if_pos hlt]
        exact hin b hb i hi
      · simp only [if_neg hlt]
        exact (hcut b hb i hi (Nat.not_lt.mp hlt)).symm
    · intro x hx
      by_cases hlt : x < lastStop (emitted st'.lines)
      · simp only [if_pos hlt]
        exact hout x hx
      · simp only [if_neg hlt]

/-- A `malloc` that gives up to a gigabyte. -/
def upToGiga (n : Nat) : Bool := n ≤ 2 ^ 30

/-- A `halt` at an address. -/
def haltBin (addr : Word) : Bin := ⟨addr, Function.update (fun _ => 0) 0 (hpack 0 0), 1⟩

theorem placed_halt (addr : Word) (h : addr.toNat < MEM_SIZE) : Placed [haltBin addr] where
  inside := by
    intro b hb
    obtain rfl := List.mem_singleton.mp hb
    exact h
  apart := List.pairwise_singleton _ _

def nopBin (addr : Word) : Bin := ⟨addr, Function.update (fun _ => 0) 0 (hpack 1 0), 1⟩

/-- A `.pos`, which has an address and no bytes. -/
def posBin (addr : Word) : Bin := ⟨addr, Function.update (fun _ => 0) 0 (hpack 12 1), 0⟩

/-- `xorq %rax,%rbx` -/
def xorBin (addr : Word) : Bin :=
  ⟨addr, Function.update (Function.update (fun _ => 0) 0 (hpack 6 3)) 1 (hpack 0 3), 2⟩

/-- Two instructions, the second one in front of the first, and a third one far behind. -/
def movedText : Text := ".pos 16\nxorq %rax,%rbx\n.pos 0\nnop\n.pos 0x1050\nhalt".toList

def movedAsm : Asm where
  lines := [⟨TYPE_INS, posBin 16, ".pos 16".toList⟩,
    ⟨TYPE_INS, xorBin 16, "xorq %rax,%rbx".toList⟩,
    ⟨TYPE_INS, posBin 0, ".pos 0".toList⟩,
    ⟨TYPE_INS, nopBin 0, "nop".toList⟩,
    ⟨TYPE_INS, posBin 0x1050, ".pos 0x1050".toList⟩,
    ⟨TYPE_INS, haltBin 0x1050, "halt".toList⟩]
  vmaddr := 0x1051
  symtab := []
  reltab := []
  allocs := 3

theorem assemble_moved : assemble (fun _ => []) movedText = .ok movedAsm := rfl

theorem placed_moved : Placed (emitted movedAsm.lines) where
  inside := by
    change ∀ b ∈ [xorBin 16, nopBin 0, haltBin 0x1050], b.stop ≤ MEM_SIZE
    decide
  apart := by
    change [xorBin 16, nopBin 0, haltBin 0x1050].Pairwise Bin.Apart
    unfold Bin.Apart
    decide

theorem a_moved_program_arrives :
    Arrives (fun _ => []) upToGiga movedText (emitted movedAsm.lines) := by
  apply (the_program_arrives_iff assemble_moved rfl placed_moved).mpr
  refine ⟨?_, ?_, ?_, ?_⟩
  · decide
  · change ∀ b ∈ [xorBin 16, nopBin 0, haltBin 0x1050], b.stop ≤ 4177
    decide
  · decide
  · change ∀ b ∈ [xorBin 16, nopBin 0, haltBin 0x1050], ∀ i < b.bytes, 4177 ≤ b.start + i →
      b.codes i = 0
    decide

/-- `.pos` moves the location counter down behind the last instruction. -/
def backText : Text := ".pos 16\nhalt\n.pos 0".toList

def backAsm : Asm where
  lines := [⟨TYPE_INS, posBin 16, ".pos 16".toList⟩,
    ⟨TYPE_INS, haltBin 16, "halt".toList⟩,
    ⟨TYPE_INS, posBin 0, ".pos 0".toList⟩]
  vmaddr := 0
  symtab := []
  reltab := []
  allocs := 1

theorem a_program_that_ends_low_does_not_arrive :
    assemble (fun _ => []) backText = .ok backAsm ∧ relocate backAsm = .ok backAsm ∧
      Placed (emitted backAsm.lines) ∧ yas (fun _ => []) upToGiga backText = .error .crash ∧
      ¬Arrives (fun _ => []) upToGiga backText (emitted backAsm.lines) := by
  have hcrash : yas (fun _ => []) upToGiga backText = .error .crash := rfl
  refine ⟨rfl, rfl, placed_halt 16 (by decide), hcrash, ?_⟩
  rintro ⟨f, m, hf, -, -⟩
  rw [hcrash] at hf
  cases hf

end ics_labs.asm
