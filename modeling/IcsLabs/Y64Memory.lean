-- Two memories of lab4 side by side: what `set_long_val` changes of the bytes and of the
-- words that share some of them, and which differences `diff_mem` sees in steps of 8 bytes.
import IcsLabs.CText
import IcsLabs.Y64Faults

open ics_labs.byte_words ics_labs.memory ics_labs.ctext

namespace ics_labs.y64sim

def BLK_SIZE : Int := 32

/-- The length of the memory that `init_mem` makes, in `int` arithmetic. -/
def blockLen (len : Int) : Int := int ((int (len + BLK_SIZE - 1)).tdiv BLK_SIZE * BLK_SIZE)

theorem blockLen_lt (len : Int) : blockLen len < 2 ^ 31 :=
  Int.bmod_lt (by decide)

/-- `calloc` takes a negative length for a huge one and gives no bytes. -/
def init_mem (len : Int) : Option Mem :=
  if 0 ≤ blockLen len then
    some { len := (blockLen len).toNat, contents := fun _ => 0,
           len_lt := by have := blockLen_lt len; omega }
  else none

/-- A memory that `init_mem` made, whatever was written into it since. -/
def Made (m : Mem) : Prop := ∃ len m₀, init_mem len = some m₀ ∧ m.len = m₀.len

def dup_mem (oldm : Mem) : Option Mem :=
  (init_mem oldm.len).map fun newm =>
    { newm with contents := fun x => if x < oldm.len then oldm.contents x else newm.contents x }

/-- `0x%.16lx`. -/
def longHex (v : Word) : Text :=
  let ds := Nat.toDigits 16 v.toNat
  "0x".toList ++ List.replicate (16 - ds.length) '0' ++ ds

def diffLine (pos ov nv : Word) : Text :=
  longHex pos ++ ":\t".toList ++ longHex ov ++ "\t".toList ++ longHex nv ++ "\n".toList

/-- The loop of `diff_mem`, from `pos` on. A word that `get_long_val` refuses stays 0, and
`none` is an access outside the array. -/
def diffLoop (oldm newm : Mem) (outfile : Bool) (len pos : Nat) (diff : Bool) (out : Text) :
    Option (Bool × Text) :=
  if h : (!diff || outfile) = true ∧ pos < len then do
    let ov := (← get_long_val oldm (BitVec.ofNat 64 pos)).getD 0
    let nv := (← get_long_val newm (BitVec.ofNat 64 pos)).getD 0
    if nv ≠ ov then
      diffLoop oldm newm outfile len (pos + 8) true
        (if outfile then out ++ diffLine (BitVec.ofNat 64 pos) ov nv else out)
    else diffLoop oldm newm outfile len (pos + 8) diff out
  else some (diff, out)
termination_by len - pos

/-- The answer, and what goes to `outfile`. -/
def diff_mem (oldm newm : Mem) (outfile : Bool) : Option (Bool × Text) :=
  let len := if newm.len < oldm.len then newm.len else oldm.len
  diffLoop oldm newm outfile len 0 false []

/-! ## The length -/

/-- A whole number of blocks is not rounded. -/
theorem init_mem_blocks (m : Mem) (h : 32 ∣ m.len) :
    init_mem m.len = some { m with contents := fun _ => 0 } := by
  have hm := m.len_lt
  have hblock : blockLen m.len = m.len := by
    unfold blockLen int BLK_SIZE
    rw [@Int.bmod_eq_of_le ((m.len : Int) + 32 - 1) _ (by omega) (by omega),
      Int.tdiv_eq_ediv_of_nonneg (by omega),
      show ((m.len : Int) + 32 - 1) / 32 * 32 = m.len by omega,
      Int.bmod_eq_of_le (by omega) (by omega)]
  unfold init_mem
  rw [if_pos (by omega)]
  congr
  omega

/-- `init_mem` makes whole blocks, and every number of them. -/
theorem made_iff (m : Mem) : Made m ↔ 32 ∣ m.len := by
  constructor
  · rintro ⟨len, m₀, h₀, hlen⟩
    unfold init_mem at h₀
    split at h₀
    · rename_i hpos
      have hblock : (m.len : Int) = blockLen len := by
        simp only [Option.some.injEq] at h₀
        subst h₀
        rw [hlen]
        exact Int.toNat_of_nonneg hpos
      unfold blockLen int BLK_SIZE at hblock
      rw [Int.bmod_def] at hblock
      split at hblock <;> omega
    · simp at h₀
  · exact fun h => ⟨m.len, _, init_mem_blocks m h, rfl⟩

theorem Made.eight_dvd {m : Mem} (h : Made m) : 8 ∣ m.len := by
  have := (made_iff m).mp h
  omega

/-! ## The words -/

/-- Two words are equal when all their bytes are. -/
theorem wordAt_eq_iff (m m' : Mem) (a : Word) :
    wordAt m a = wordAt m' a ↔ Agree m.contents m'.contents a.toNat 8 := by
  constructor
  · intro h x hx hx'
    obtain ⟨i, rfl⟩ : ∃ i, x = a.toNat + i := ⟨x - a.toNat, by omega⟩
    rw [byte_of_word m a (by omega), byte_of_word m' a (by omega), h]
  · exact wordAt_congr

/-- The bytes of a word that `put` may have overwritten in part: those at an address of the
new word are its bytes, the others are as they were. -/
theorem byteOf_put (m : Mem) (a v b : Word) {i : Nat} (hi : i < 8) :
    byteOf (wordAt (m.put a v) b).toNat i =
      if a.toNat ≤ b.toNat + i ∧ b.toNat + i < a.toNat + 8
      then byteOf v.toNat (b.toNat + i - a.toNat) else m.contents (b.toNat + i) := by
  rw [← byte_of_word (m.put a v) b hi, put_contents]
  rfl

/-! ## The comparison -/

/-- The step: while the word at `pos` is inside both memories, one turn compares its eight
bytes and goes on behind them. -/
theorem diffLoop_turn {oldm newm : Mem} {len pos : Nat} (outfile diff : Bool) (out : Text)
    (hold : pos + 8 ≤ oldm.len) (hnew : pos + 8 ≤ newm.len) (hpos : pos < len)
    (hgo : diff = false ∨ outfile = true) :
    ∃ d t, diffLoop oldm newm outfile len pos diff out =
        diffLoop oldm newm outfile len (pos + 8) d t ∧
      (d = false ↔ diff = false ∧ Agree oldm.contents newm.contents pos 8) := by
  have hl := oldm.len_lt
  have hp : (BitVec.ofNat 64 pos).toNat = pos := by
    rw [BitVec.toNat_ofNat, Nat.mod_eq_of_lt (by omega)]
  have hov : get_long_val oldm (BitVec.ofNat 64 pos) =
      some (some (wordAt oldm (BitVec.ofNat 64 pos))) :=
    readWord_inside (by unfold Inside; omega)
  have hnv : get_long_val newm (BitVec.ofNat 64 pos) =
      some (some (wordAt newm (BitVec.ofNat 64 pos))) :=
    readWord_inside (by unfold Inside; omega)
  have hsame := wordAt_eq_iff newm oldm (BitVec.ofNat 64 pos)
  rw [hp] at hsame
  have hcond : (!diff || outfile) = true ∧ pos < len := by
    refine ⟨?_, hpos⟩
    rcases hgo with rfl | rfl <;> simp
  rw [diffLoop, dif_pos hcond, hov, hnv]
  simp only [Option.bind_eq_bind, Option.bind_some, Option.getD_some]
  by_cases hne : wordAt newm (BitVec.ofNat 64 pos) = wordAt oldm (BitVec.ofNat 64 pos)
  · rw [if_neg (by simpa using hne)]
    exact ⟨_, _, rfl, by simp [(hsame.mp hne).symm]⟩
  · rw [if_pos hne]
    refine ⟨_, _, rfl, ?_⟩
    simp only [Bool.true_eq_false, false_iff, not_and]
    exact fun _ hagree => hne (hsame.mpr hagree.symm)

/-- The run: from `pos` on the loop sees every byte up to `len`, which is a whole number of
words further. -/
theorem diffLoop_eq {oldm newm : Mem} {len : Nat} (hold : oldm.len = len) (hnew : newm.len = len)
    (outfile : Bool) (n : Nat) {pos : Nat} (hn : len = pos + 8 * n) (diff : Bool) (out : Text) :
    ∃ d t, diffLoop oldm newm outfile len pos diff out = some (d, t) ∧
      (d = false ↔ diff = false ∧ Agree oldm.contents newm.contents pos (8 * n)) := by
  induction n generalizing pos diff out with
  | zero =>
    refine ⟨diff, out, ?_, ?_⟩
    · rw [diffLoop, dif_neg (by omega)]
    · constructor
      · exact fun h => ⟨h, fun x hx hx' => by omega⟩
      · exact fun h => h.1
  | succ n ih =>
    by_cases hgo : diff = false ∨ outfile = true
    · have hword : pos + 8 ≤ oldm.len ∧ pos + 8 ≤ newm.len ∧ pos < len := by omega
      obtain ⟨d, t, hturn, hd⟩ := diffLoop_turn outfile diff out hword.1 hword.2.1 hword.2.2 hgo
      obtain ⟨d', t', hrest, hd'⟩ := @ih (pos + 8) (by omega) d t
      refine ⟨d', t', hturn.trans hrest, ?_⟩
      rw [hd', hd, and_assoc]
      refine and_congr_right fun _ => ⟨fun ⟨h1, h2⟩ x hx hx' => ?_, fun h => ⟨?_, ?_⟩⟩
      · rcases Nat.lt_or_ge x (pos + 8) with hlt | hge
        · exact h1 x hx hlt
        · exact h2 x hge (by omega)
      · exact h.mono (Nat.le_refl pos) (by omega)
      · exact h.mono (by omega) (by omega)
    · -- a difference was found, and nobody wants the others
      obtain ⟨hdiff, hout⟩ := not_or.mp hgo
      refine ⟨diff, out, ?_, ?_⟩
      · rw [diffLoop, dif_neg (by simp [hdiff, hout])]
      · exact ⟨fun h => absurd h hdiff, fun h => h.1⟩

/-- Over whole words of equal lengths `diff_mem` says whether some byte differs. -/
theorem diff_mem_eq {oldm newm : Mem} (hlen : oldm.len = newm.len) (hwords : 8 ∣ oldm.len)
    (outfile : Bool) : ∃ d t, diff_mem oldm newm outfile = some (d, t) ∧
      (d = false ↔ ∀ x < oldm.len, oldm.contents x = newm.contents x) := by
  obtain ⟨n, hn⟩ := hwords
  unfold diff_mem
  rw [if_neg (by omega)]
  obtain ⟨d, t, hrun, hd⟩ :=
    diffLoop_eq rfl hlen.symm outfile n (by omega : oldm.len = 0 + 8 * n) false []
  refine ⟨d, t, hrun, ?_⟩
  rw [hd, hn]
  constructor
  · exact fun h x hx => h.2 x (Nat.zero_le x) (by omega)
  · exact fun h => ⟨rfl, fun x _ hx => h x (by omega)⟩

/-- A run that is compared with the copy of the memory that was saved before it: the answer
says whether the run changed a byte. -/
theorem diff_from_the_saved_copy {m m' : Mem} (h : Made m) (hlen : m.len = m'.len)
    (outfile : Bool) : ∃ saved d t, dup_mem m = some saved ∧
      diff_mem saved m' outfile = some (d, t) ∧
      (d = false ↔ ∀ x < m.len, m.contents x = m'.contents x) := by
  let saved : Mem := { m with contents := fun x => if x < m.len then m.contents x else 0 }
  obtain ⟨d, t, hrun, hd⟩ := @diff_mem_eq saved m' hlen h.eight_dvd outfile
  refine ⟨saved, d, t, ?_, hrun, ?_⟩
  · unfold dup_mem
    rw [init_mem_blocks m ((made_iff m).mp h), Option.map_some]
  · rw [hd]
    refine forall_congr' fun x => imp_congr_right fun hx => ?_
    rw [show saved.contents x = m.contents x from if_pos hx]

/-! ## The law -/

/-- A word that was written comes back, and it alone is changed; a word that shares some of
its bytes is the mix of both; and a comparison of two memories misses no byte. -/
theorem every_byte_of_a_word_is_written_and_compared {m : Mem} {a : Word} (v : Word)
    (hin : ¬ OutOf m a) {oldm newm : Mem} (hold : Made oldm) (hlen : oldm.len = newm.len) :
    (∃ m', set_long_val m a v = some (some m') ∧ m'.len = m.len ∧
      get_long_val m' a = some (some v) ∧
      (∀ x, x < a.toNat ∨ a.toNat + 8 ≤ x → m'.contents x = m.contents x) ∧
      ∀ b, ¬ OutOf m b → ∃ w, get_long_val m' b = some (some w) ∧ ∀ i < 8,
        byteOf w.toNat i =
          if a.toNat ≤ b.toNat + i ∧ b.toNat + i < a.toNat + 8
          then byteOf v.toNat (b.toNat + i - a.toNat) else m.contents (b.toNat + i)) ∧
    ∃ d t, diff_mem oldm newm false = some (d, t) ∧
      (d = false ↔ ∀ x < oldm.len, oldm.contents x = newm.contents x) := by
  refine ⟨⟨m.put a v, set_long_val_in hin, put_len m a v, ?_, fun x hx => put_other hx, ?_⟩,
    diff_mem_eq hlen hold.eight_dvd false⟩
  · rw [get_long_val_in (m := m.put a v) hin, wordAt_put_same]
  · intro b hb
    exact ⟨_, get_long_val_in (m := m.put a v) hb, fun i hi => byteOf_put m a v b hi⟩

/-- A negative word at an odd address of one block: it comes back, the words around it see
their part of it, and the comparison with the block of zeros finds it. -/
theorem a_negative_word_at_an_odd_address :
    let m : Mem := ⟨32, fun _ => 0, by decide⟩
    (∃ m', set_long_val m 3 (-2) = some (some m') ∧ get_long_val m' 3 = some (some (-2)) ∧
      m'.contents 2 = 0 ∧ ∃ w, get_long_val m' 8 = some (some w) ∧ byteOf w.toNat 2 = 0xFF ∧
        byteOf w.toNat 3 = 0) ∧
    ∃ d t, diff_mem m (m.put 3 (-2)) false = some (d, t) ∧ d = true := by
  intro m
  obtain ⟨⟨m', hset, -, hget, hout, hmix⟩, d, t, hdiff, hd⟩ :=
    @every_byte_of_a_word_is_written_and_compared m 3 (-2) (by decide) m (m.put 3 (-2))
      ((made_iff m).mpr (by decide)) rfl
  refine ⟨⟨m', hset, hget, hout 2 (by decide), ?_⟩, d, t, hdiff, ?_⟩
  · obtain ⟨w, hw, hbytes⟩ := hmix 8 (by decide)
    exact ⟨w, hw, (hbytes 2 (by decide)).trans (by decide), (hbytes 3 (by decide)).trans (by decide)⟩
  · by_contra hf
    have hzero := hd.mp (by simpa using hf) 3 (by decide)
    exact absurd hzero (by decide)

end ics_labs.y64sim
