-- The counts of csim against those of a cache that throws out the block whose last
-- access is the oldest. They agree as long as the readings of the clock tell the
-- oldest block apart, and part with the next access after one that does not.
import IcsLabs.Csim
import IcsLabs.Lru

open ics_labs.memory ics_labs.lru ics_labs.runs

namespace ics_labs.csim

/-! ## The reference cache -/

/-- A cache with `2 ^ s` sets. A set is its tags, the one accessed last in front. -/
structure Reference where
  sets : Nat → List Nat
  counts : Counts Nat

def emptyReference : Reference := ⟨fun _ => [], ⟨0, 0, 0⟩⟩

/-- The tag and the set of an address, by the number of its block. -/
def tagOf (s b : Nat) (addr : Word) : Nat := addr.toNat / 2 ^ b / 2 ^ s

def setOf (s b : Nat) (addr : Word) : Nat := addr.toNat / 2 ^ b % 2 ^ s

/-- What one access adds to the counts. An `M` is a load and a store that hits. -/
def Counts.add (c : Counts Nat) (op : Char) (hit evict : Bool) : Counts Nat where
  hit := c.hit + (if hit then 1 else 0) + (if op = 'M' then 1 else 0)
  miss := c.miss + (if hit then 0 else 1)
  eviction := c.eviction + (if evict then 1 else 0)

def refAccess (s b E : Nat) (r : Reference) (a : Access) : Reference :=
  if !isData a.op then r
  else
    let tag := tagOf s b a.addr
    let set := r.sets (setOf s b a.addr)
    { sets := Function.update r.sets (setOf s b a.addr) (touch E tag set)
      counts := r.counts.add a.op (tag ∈ set) (evicts E tag set) }

def refRun (s b E : Nat) (trace : List Access) : Reference :=
  trace.foldl (refAccess s b E) emptyReference

theorem refAccess_skips {s b E : Nat} {r : Reference} {a : Access} (hd : isData a.op = false) :
    refAccess s b E r a = r := by
  rw [refAccess, hd]
  rfl

theorem refAccess_data {s b E : Nat} {r : Reference} {a : Access} (hd : isData a.op = true) :
    refAccess s b E r a =
      { sets := Function.update r.sets (setOf s b a.addr)
          (touch E (tagOf s b a.addr) (r.sets (setOf s b a.addr)))
        counts := r.counts.add a.op (tagOf s b a.addr ∈ r.sets (setOf s b a.addr))
          (evicts E (tagOf s b a.addr) (r.sets (setOf s b a.addr))) } := by
  rw [refAccess, hd]
  rfl

/-! ## Addresses -/

/-- The shifts of csim are defined: `1 << s` is an `int`, the tag has at most 62 bits, and an
address is shifted by at most 63. -/
structure ShiftsDefined (s b : Nat) : Prop where
  set_num : s < 31
  tag : 1 < s + b
  lt : s + b < 64

theorem mask_eq {t : Nat} (h : t < 64) :
    ((1 : Word) <<< t - 1) = BitVec.ofNat 64 (2 ^ t - 1) := by
  have hp : 2 ^ t < 2 ^ 64 := Nat.pow_lt_pow_right (by omega) h
  have h1 : 1 ≤ 2 ^ t := Nat.one_le_two_pow
  apply BitVec.eq_of_toNat_eq
  rw [BitVec.toNat_sub, BitVec.toNat_shiftLeft, BitVec.toNat_ofNat,
    show (1 : Word).toNat = 1 from rfl, Nat.one_shiftLeft]
  omega

/-- The mask of `GET_SET` is not negative, so it is the same as a `long`. -/
theorem set_mask_eq {s : Nat} (h : s < 31) :
    ((1 : CInt) <<< s - 1).signExtend 64 = (1 : Word) <<< s - 1 := by
  have hp : 2 ^ s < 2 ^ 31 := Nat.pow_lt_pow_right (by omega) h
  have h1 : 1 ≤ 2 ^ s := Nat.one_le_two_pow
  have hm : ((1 : CInt) <<< s - 1).toNat = 2 ^ s - 1 := by
    rw [BitVec.toNat_sub, BitVec.toNat_shiftLeft, show (1 : CInt).toNat = 1 from rfl,
      Nat.one_shiftLeft]
    omega
  have hmsb : ((1 : CInt) <<< s - 1).msb = false := by
    rw [BitVec.msb_eq_decide, hm]
    exact decide_eq_false (by omega)
  rw [BitVec.signExtend_eq_setWidth_of_msb_false hmsb, mask_eq (by omega)]
  apply BitVec.eq_of_toNat_eq
  rw [BitVec.toNat_setWidth, hm, BitVec.toNat_ofNat]

/-- `t` bits from the bit `n` on, with an arithmetic shift. -/
theorem field_toNat {n t : Nat} (x : Word) (h : n + t ≤ 64) (ht : t < 64) :
    ((x.sshiftRight n) &&& ((1 : Word) <<< t - 1)).toNat = x.toNat / 2 ^ n % 2 ^ t := by
  have hx : (x.sshiftRight n) &&& ((1 : Word) <<< t - 1) =
      (x >>> n) &&& BitVec.ofNat 64 (2 ^ t - 1) := by
    rw [mask_eq ht]
    apply BitVec.eq_of_getLsbD_eq
    intro i hi
    simp only [BitVec.getLsbD_and, BitVec.getLsbD_sshiftRight, BitVec.getLsbD_ushiftRight,
      BitVec.getLsbD_ofNat, Nat.testBit_two_pow_sub_one]
    by_cases hit : i < t
    · simp [hit, hi, show n + i < 64 by omega, show ¬ 64 ≤ i by omega]
    · simp [hit]
  have hp : 2 ^ t - 1 < 2 ^ 64 := by
    have : 2 ^ t < 2 ^ 64 := Nat.pow_lt_pow_right (by omega) ht
    omega
  rw [hx, BitVec.toNat_and, BitVec.toNat_ushiftRight, BitVec.toNat_ofNat, Nat.mod_eq_of_lt hp,
    Nat.and_two_pow_sub_one_eq_mod, Nat.shiftRight_eq_div_pow]

theorem tagOf_lt {s b : Nat} (h : 1 < s + b) (x : Word) : tagOf s b x < 2 ^ 63 := by
  have hx := x.isLt
  rw [tagOf, Nat.div_div_eq_div_mul, ← Nat.pow_add]
  apply Nat.div_lt_of_lt_mul
  rw [← Nat.pow_add]
  exact Nat.lt_of_lt_of_le hx (Nat.pow_le_pow_right (by norm_num) (by omega))

theorem setOf_lt (s b : Nat) (x : Word) : setOf s b x < 2 ^ s := Nat.mod_lt _ (Nat.two_pow_pos s)

/-- The address counts as an unsigned number: the mask takes off the sign bits. -/
theorem GET_TAG_eq {s b : Nat} (h : ShiftsDefined s b) (x : Word) :
    GET_TAG s b x = some (BitVec.ofNat 64 (tagOf s b x)) := by
  obtain ⟨-, htag, hlt⟩ := h
  have ht := tagOf_lt htag x
  have hfit : x.toNat / 2 ^ (s + b) < 2 ^ (64 - s - b) := by
    apply Nat.div_lt_of_lt_mul
    rw [← Nat.pow_add]
    exact Nat.lt_of_lt_of_le x.isLt (Nat.pow_le_pow_right (by norm_num) (by omega))
  rw [GET_TAG, if_pos ⟨htag, hlt⟩, Option.some_inj]
  apply BitVec.eq_of_toNat_eq
  rw [field_toNat x (by omega) (by omega), BitVec.toNat_ofNat, Nat.mod_eq_of_lt hfit,
    Nat.mod_eq_of_lt (b := 2 ^ 64) (by omega), tagOf, Nat.div_div_eq_div_mul, ← Nat.pow_add,
    Nat.add_comm b s]

theorem GET_SET_eq {s b : Nat} (h : ShiftsDefined s b) (x : Word) :
    GET_SET s b x = some (BitVec.ofNat 64 (setOf s b x)) := by
  obtain ⟨hs, -, hlt⟩ := h
  have hset := setOf_lt s b x
  have hp : 2 ^ s < 2 ^ 31 := Nat.pow_lt_pow_right (by omega) hs
  rw [GET_SET, one_shl, if_pos hs, Option.bind_some, if_pos (by omega), Option.some_inj,
    set_mask_eq hs]
  apply BitVec.eq_of_toNat_eq
  rw [field_toNat x (by omega) (by omega), BitVec.toNat_ofNat,
    Nat.mod_eq_of_lt (a := setOf s b x) (by omega), setOf]

/-- A `long` that is not negative is its number. -/
theorem toInt_ofNat_long {n : Nat} (h : n < 2 ^ 63) : (BitVec.ofNat 64 n).toInt = n := by
  have hn : (BitVec.ofNat 64 n).toNat = n := Nat.mod_eq_of_lt (by omega)
  rw [BitVec.toInt_eq_toNat_of_lt (by omega), hn]

/-- A tag that fits in an `int` is not changed by the conversion. -/
theorem toInt32_small {t : Nat} (h : t < 2 ^ 31) : toInt32 t = t := by
  unfold toInt32
  rw [BitVec.toInt_ofInt, Int.bmod_eq_of_le] <;> omega

/-! ## The search for a line -/

/-- The line `l` at index `j` is the least recently used one by its reading of the clock,
and the first one with that reading. -/
def LeastRecent (lines : List Line) (j : Nat) (l : Line) : Prop :=
  lines[j]? = some l ∧ ∀ m x, lines[m]? = some x →
    l.used_time ≤ x.used_time ∧ (m < j → l.used_time < x.used_time)

theorem LeastRecent.unique {lines : List Line} {j k : Nat} {l x : Line}
    (hj : LeastRecent lines j l) (hk : LeastRecent lines k x) : j = k ∧ l = x := by
  have h1 := hj.2 k x hk.1
  have h2 := hk.2 j l hj.1
  have hjk : j = k := by
    rcases Nat.lt_trichotomy j k with h | h | h
    · have := h2.2 h
      omega
    · exact h
    · have := h1.2 h
      omega
  subst hjk
  exact ⟨rfl, Option.some.inj (hj.1.symm.trans hk.1)⟩

/-- What the loop of `find_store` finds among valid lines: the line it started with when
no other is older, else the first of the oldest ones. -/
theorem find_store_loop_valid {lines : List Line} (hv : ∀ l ∈ lines, l.valid = true)
    (i lru : Nat) (time : Int) :
    (find_store_loop lines i lru time = (lru, true) ∧ ∀ l ∈ lines, time ≤ l.used_time) ∨
    (∃ k l, find_store_loop lines i lru time = (i + k, true) ∧ LeastRecent lines k l ∧
      l.used_time < time) := by
  induction lines generalizing i lru time with
  | nil => exact Or.inl ⟨rfl, by simp⟩
  | cons y rest ih =>
    have hy := hv y (by simp)
    have hrest : ∀ l ∈ rest, l.valid = true := fun l hl => hv l (by simp [hl])
    rw [find_store_loop, hy]
    by_cases ht : y.used_time < time
    · simp only [Bool.not_true, Bool.false_eq_true, if_false, Bool.true_and, decide_eq_true ht,
        if_true]
      right
      rcases ih hrest (i + 1) i y.used_time with ⟨h1, h2⟩ | ⟨k, l, h1, h2, h3⟩
      · refine ⟨0, y, by simpa using h1, ⟨rfl, ?_⟩, ht⟩
        intro m x hm
        refine ⟨?_, by omega⟩
        cases m with
        | zero => cases hm; exact Int.le_refl _
        | succ m => exact h2 x (List.mem_of_getElem? hm)
      · refine ⟨k + 1, l, by rw [h1]; congr 1; omega, ⟨h2.1, ?_⟩, by omega⟩
        intro m x hm
        cases m with
        | zero => cases hm; exact ⟨by omega, fun _ => h3⟩
        | succ m =>
          have := h2.2 m x hm
          exact ⟨this.1, fun hlt => this.2 (by omega)⟩
    · simp only [Bool.not_true, Bool.false_eq_true, if_false, Bool.true_and, decide_eq_false ht]
      rcases ih hrest (i + 1) lru time with ⟨h1, h2⟩ | ⟨k, l, h1, h2, h3⟩
      · left
        refine ⟨h1, fun l hl => ?_⟩
        rcases List.mem_cons.mp hl with rfl | hl
        · omega
        · exact h2 l hl
      · right
        refine ⟨k + 1, l, by rw [h1]; congr 1; omega, ⟨h2.1, ?_⟩, h3⟩
        intro m x hm
        cases m with
        | zero => cases hm; exact ⟨by omega, fun _ => by omega⟩
        | succ m =>
          have := h2.2 m x hm
          exact ⟨this.1, fun hlt => this.2 (by omega)⟩

/-- In a full set `find_store` takes the least recently used line by the readings. -/
theorem find_store_full {lines : List Line} (hv : ∀ l ∈ lines, l.valid = true)
    (hne : lines ≠ []) : ∃ j l, find_store lines = (j, true) ∧ LeastRecent lines j l := by
  cases lines with
  | nil => exact absurd rfl hne
  | cons y rest =>
    unfold find_store
    rcases find_store_loop_valid hv 0 0 y.used_time with ⟨h1, h2⟩ | ⟨k, l, h1, h2, -⟩
    · refine ⟨0, y, h1, rfl, fun m x hm => ⟨h2 x (List.mem_of_getElem? hm), by omega⟩⟩
    · exact ⟨k, l, by simpa using h1, h2⟩

/-- With a free line, `find_store` takes the first one. -/
theorem find_store_free {vs rest : List Line} {y : Line} (hv : ∀ l ∈ vs, l.valid = true)
    (hy : y.valid = false) : find_store (vs ++ y :: rest) = (vs.length, false) := by
  have hloop : ∀ i lru time, find_store_loop (vs ++ y :: rest) i lru time =
      (i + vs.length, false) := by
    induction vs with
    | nil => intro i lru time; simp [find_store_loop, hy]
    | cons z vs ih =>
      intro i lru time
      have hz := hv z (by simp)
      rw [List.cons_append, find_store_loop, hz, List.length_cons]
      simp only [Bool.not_true, Bool.false_eq_true, if_false]
      have hi := ih (fun l hl => hv l (by simp [hl]))
      split <;> rw [hi] <;> congr 1 <;> omega
  unfold find_store
  simpa using hloop 0 0 _

/-! ## A set and its reference -/

/-- The lines `vs` in front hold the blocks of the reference, one each; the rest is blank. -/
structure HoldsIn (E : Nat) (vs lines : List Line) (tags : List Nat) : Prop where
  shape : lines = vs ++ List.replicate (E - vs.length) blank
  fits : vs.length ≤ E
  valid : ∀ l ∈ vs, l.valid = true
  perm : (vs.map Line.tag).Perm (tags.map (Nat.cast : Nat → Int))
  nodup : tags.Nodup
  small : ∀ t ∈ tags, t < 2 ^ 31

def Holds (E : Nat) (lines : List Line) (tags : List Nat) : Prop :=
  ∃ vs, HoldsIn E vs lines tags

theorem holds_blank (E : Nat) : Holds E (List.replicate E blank) [] :=
  ⟨[], by simp, by simp, by simp, by simp, List.nodup_nil, by simp⟩

theorem HoldsIn.length_eq {E : Nat} {vs lines : List Line} {tags : List Nat}
    (h : HoldsIn E vs lines tags) : vs.length = tags.length := by
  simpa using h.perm.length_eq

theorem HoldsIn.mem_iff {E : Nat} {vs lines : List Line} {tags : List Nat}
    (h : HoldsIn E vs lines tags) (t : Nat) : t ∈ tags ↔ ∃ l ∈ vs, l.tag = t := by
  have := h.perm.mem_iff (a := (t : Int))
  simp only [List.mem_map, Nat.cast_inj, exists_eq_right] at this
  exact this.symm

/-- The search finds a line with the tag exactly when the reference has it. -/
theorem find_line_isSome {E : Nat} {vs lines : List Line} {tags : List Nat}
    (h : HoldsIn E vs lines tags) (t : Nat) :
    (find_line t lines).isSome = decide (t ∈ tags) := by
  rw [Bool.eq_iff_iff, decide_eq_true_iff, h.mem_iff, find_line, List.findIdx?_isSome,
    List.any_eq_true, h.shape]
  simp only [List.mem_append, List.mem_replicate, Bool.and_eq_true, beq_iff_eq]
  constructor
  · rintro ⟨l, hl | hl, hv, ht⟩
    · exact ⟨l, hl, ht⟩
    · rw [hl.2] at hv
      cases hv
  · rintro ⟨l, hl, ht⟩
    exact ⟨l, Or.inl hl, h.valid l hl, ht⟩

theorem find_line_some {E i : Nat} {vs lines : List Line} {tags : List Nat}
    (h : HoldsIn E vs lines tags) {t : Nat} (hf : find_line t lines = some i) :
    (vs.map Line.tag)[i]? = some (t : Int) := by
  rw [find_line, List.findIdx?_eq_some_iff_getElem, h.shape] at hf
  obtain ⟨hi, hp, -⟩ := hf
  simp only [Bool.and_eq_true, beq_iff_eq] at hp
  by_cases hlt : i < vs.length
  · rw [List.getElem_append_left hlt] at hp
    simp [hlt, hp.2]
  · rw [List.getElem_append_right (by omega), List.getElem_replicate] at hp
    cases hp.1

/-- Putting `b` where `a` stood. -/
theorem set_perm_of {α : Type} {l rest : List α} {n : Nat} {a : α} (h : l[n]? = some a)
    (hp : l.Perm (a :: rest)) (b : α) : (l.set n b).Perm (b :: rest) := by
  obtain ⟨hn, rfl⟩ := List.getElem?_eq_some_iff.mp h
  have h1 := (List.getElem_cons_eraseIdx_perm hn).trans hp
  exact (List.set_perm_cons_eraseIdx hn b).trans ((h1.cons_inv).cons b)

/-- A valid line takes the place of one of the lines that hold something. -/
theorem HoldsIn.replace {E i t : Nat} {vs lines : List Line} {tags rest : List Nat} {a : Int}
    {new : Line} (h : HoldsIn E vs lines tags) (hi : (vs.map Line.tag)[i]? = some a)
    (hp : (vs.map Line.tag).Perm (a :: rest.map (Nat.cast : Nat → Int)))
    (hnew : new.valid = true) (ht : new.tag = t) (hsmall : t < 2 ^ 31)
    (hsub : ∀ x ∈ rest, x ∈ tags) (hnodup : (t :: rest).Nodup) :
    Holds E (lines.set i new) (t :: rest) := by
  have hlt : i < vs.length := by
    obtain ⟨hlt, -⟩ := List.getElem?_eq_some_iff.mp hi
    simpa using hlt
  refine ⟨vs.set i new, ?_, by simpa using h.fits, ?_, ?_, hnodup, ?_⟩
  · rw [h.shape, List.set_append_left _ _ hlt, List.length_set]
  · intro l hl
    rcases List.mem_or_eq_of_mem_set hl with hl | rfl
    · exact h.valid l hl
    · exact hnew
  · rw [List.map_set, ht]
    exact set_perm_of hi hp t
  · intro x hx
    rcases List.mem_cons.mp hx with rfl | hx
    · exact hsmall
    · exact h.small x (hsub x hx)

/-- A line that holds nothing takes the new block. -/
theorem HoldsIn.append {E t : Nat} {vs lines : List Line} {tags : List Nat} {new : Line}
    (h : HoldsIn E vs lines tags) (hfree : tags.length ≠ E) (hnew : new.valid = true)
    (ht : new.tag = t) (hsmall : t < 2 ^ 31) (hnot : t ∉ tags) :
    Holds E (lines.set vs.length new) (t :: tags) := by
  have hlen := h.length_eq
  have hfits := h.fits
  obtain ⟨k, hk⟩ : ∃ k, E - vs.length = k + 1 := ⟨E - vs.length - 1, by omega⟩
  refine ⟨vs ++ [new], ?_, by simp; omega, ?_, ?_, List.nodup_cons.mpr ⟨hnot, h.nodup⟩, ?_⟩
  · rw [h.shape, hk, List.replicate_succ, List.set_append_right _ _ (Nat.le_refl _), Nat.sub_self,
      List.set_cons_zero, List.append_assoc, List.length_append,
      show E - (vs.length + [new].length) = k by simp; omega]
    rfl
  · intro l hl
    rcases List.mem_append.mp hl with hl | hl
    · exact h.valid l hl
    · rw [List.mem_singleton.mp hl]
      exact hnew
  · rw [List.map_append, List.map_cons, List.map_nil, ht]
    exact (List.perm_append_singleton _ _).trans (h.perm.cons _)
  · intro x hx
    rcases List.mem_cons.mp hx with rfl | hx
    · exact hsmall
    · exact h.small x hx

/-! ## One access -/

/-- The line that the access stores in. -/
def lineFor (t : Int) (lines : List Line) : Nat := (find_line t lines).getD (find_store lines).1

/-- The set after the access, when the clock reads `now`. -/
def stored (t now : Int) (lines : List Line) : List Line :=
  lines.set (lineFor t lines) (update_cache t now)

/-- The readings of the clock tell which block is the oldest: the line that holds it has
the least reading, and is the first one with it. -/
def Stands (lines : List Line) (old : Nat) : Prop :=
  ∃ j l, LeastRecent lines j l ∧ l.tag = old

theorem HoldsIn.full {E : Nat} {vs lines : List Line} {tags : List Nat}
    (h : HoldsIn E vs lines tags) (hE : tags.length = E) : lines = vs := by
  have hlen := h.length_eq
  rw [h.shape, hlen, hE, Nat.sub_self]
  simp

theorem find_store_evicts {E : Nat} (hE : 1 ≤ E) {lines : List Line} {tags : List Nat}
    (h : Holds E lines tags) : (find_store lines).2 = decide (tags.length = E) := by
  obtain ⟨vs, h⟩ := h
  have hlen := h.length_eq
  have hfits := h.fits
  by_cases hfull : tags.length = E
  · rw [h.full hfull]
    obtain ⟨j, l, hs, -⟩ := find_store_full h.valid (by rw [← List.length_pos_iff]; omega)
    simp [hs, hfull]
  · obtain ⟨k, hk⟩ : ∃ k, E - vs.length = k + 1 := ⟨E - vs.length - 1, by omega⟩
    rw [h.shape, hk, List.replicate_succ, find_store_free h.valid rfl]
    simp [hfull]

/-- The set keeps step with the reference, if the line of the oldest block stands out when
a block has to go. -/
theorem stored_holds {E : Nat} (hE : 1 ≤ E) {lines : List Line} {tags : List Nat} {t : Nat}
    (h : Holds E lines tags) (ht : t < 2 ^ 31) (now : Int)
    (hold : evicts E t tags = true → ∀ old, tags.getLast? = some old → Stands lines old) :
    Holds E (stored t now lines) (touch E t tags) := by
  obtain ⟨vs, h⟩ := h
  have hfind := find_line_isSome h t
  unfold stored lineFor
  by_cases hmem : t ∈ tags
  · -- a hit: the block moves to the front of the reference
    rw [decide_eq_true hmem] at hfind
    obtain ⟨i, hi⟩ := Option.isSome_iff_exists.mp hfind
    rw [hi, touch, if_pos hmem]
    have hperm : (vs.map Line.tag).Perm
        ((t : Int) :: (tags.erase t).map (Nat.cast : Nat → Int)) := by
      rw [← List.map_cons]
      exact h.perm.trans ((List.perm_cons_erase hmem).map _)
    exact h.replace (find_line_some h hi) hperm rfl rfl ht
      (fun x hx => List.mem_of_mem_erase hx)
      (List.nodup_cons.mpr ⟨h.nodup.not_mem_erase, h.nodup.erase t⟩)
  · rw [decide_eq_false hmem, Option.isSome_eq_false_iff, Option.isNone_iff_eq_none] at hfind
    rw [hfind, Option.getD_none, touch, if_neg hmem]
    have hlen := h.length_eq
    have hfits := h.fits
    by_cases hfull : tags.length = E
    · -- a full set: the line of the oldest block takes the new one
      rw [if_pos hfull]
      have hne : tags ≠ [] := by
        rw [← List.length_pos_iff]
        omega
      obtain ⟨j, l, hleast, htag⟩ := hold (by simp [evicts, hmem, hfull]) (tags.getLast hne)
        (List.getLast?_eq_some_getLast hne)
      rw [h.full hfull] at hleast
      obtain ⟨j', l', hs, hleast'⟩ := find_store_full h.valid
        (by rw [← List.length_pos_iff]; omega)
      obtain ⟨rfl, rfl⟩ := hleast.unique hleast'
      have hperm : (vs.map Line.tag).Perm
          (l.tag :: tags.dropLast.map (Nat.cast : Nat → Int)) := by
        refine h.perm.trans ?_
        rw [htag, ← List.map_cons]
        apply List.Perm.map
        conv_lhs => rw [← List.dropLast_append_getLast hne]
        exact List.perm_append_singleton _ _
      have hj : (vs.map Line.tag)[j]? = some l.tag := by
        rw [List.getElem?_map, hleast.1]
        rfl
      have hidx : (find_store lines).1 = j := by rw [h.full hfull, hs]
      rw [hidx]
      exact h.replace hj hperm rfl rfl ht (fun x hx => (List.dropLast_sublist tags).mem hx)
        (List.nodup_cons.mpr ⟨fun hx => hmem ((List.dropLast_sublist tags).mem hx),
          h.nodup.sublist (List.dropLast_sublist tags)⟩)
    · -- a free line takes the new block
      rw [if_neg hfull]
      have hidx : (find_store lines).1 = vs.length := by
        obtain ⟨k, hk⟩ : ∃ k, E - vs.length = k + 1 := ⟨E - vs.length - 1, by omega⟩
        rw [h.shape, hk, List.replicate_succ, find_store_free h.valid rfl]
      rw [hidx]
      exact h.append hfull rfl rfl ht hmem

/-- Where the oldest block does not stand out, it stays in the set. -/
theorem stored_keeps_oldest {E : Nat} {lines : List Line} {tags : List Nat} {t old : Nat}
    (h : Holds E lines tags) (now : Int) (he : evicts E t tags = true)
    (hold : tags.getLast? = some old) (hnot : ¬Stands lines old) :
    (find_line old (stored t now lines)).isSome = true := by
  obtain ⟨vs, h⟩ := h
  simp only [evicts, Bool.and_eq_true, decide_eq_true_eq, beq_iff_eq] at he
  obtain ⟨hmem, hfull⟩ := he
  have hfind := find_line_isSome h t
  rw [decide_eq_false hmem, Option.isSome_eq_false_iff, Option.isNone_iff_eq_none] at hfind
  obtain ⟨x, hx, hxt⟩ := (h.mem_iff old).mp (List.mem_of_getLast? hold)
  have hvs := h.full hfull
  obtain ⟨j, l, hs, hleast⟩ := find_store_full h.valid (List.ne_nil_of_mem hx)
  have hl : l.tag ≠ old := fun htag => hnot ⟨j, l, by rw [hvs]; exact hleast, htag⟩
  obtain ⟨m, hm⟩ := List.getElem?_of_mem hx
  have hmj : m ≠ j := by
    rintro rfl
    rw [hleast.1] at hm
    exact hl (by rw [Option.some.inj hm, hxt])
  have hmem' : x ∈ stored t now lines := by
    unfold stored lineFor
    rw [hfind, hvs, hs]
    apply List.mem_of_getElem? (i := m)
    rw [Option.getD_none, List.getElem?_set_ne (fun e => hmj e.symm), hm]
  rw [find_line, List.findIdx?_isSome, List.any_eq_true]
  exact ⟨x, hmem', by simp [h.valid x hx, hxt]⟩

/-- The sets behind a turn of the loop. -/
theorem serve_sets (c : Csim) (op : Char) (t now : Int) (i : Nat) (lines : List Line) :
    (c.serve op t now i lines).sets = c.sets.set i (stored t now lines) := rfl

/-- An access of data, with the lines of its set. -/
theorem access_eq {s b : Nat} (hg : ShiftsDefined s b) (clock : Nat → Int) {c : Csim} {a : Access}
    {lines : List Line} (hd : isData a.op = true)
    (hl : c.sets[setOf s b a.addr]? = some lines) :
    deal_with_access s b clock c a = some (c.serve a.op (toInt32 (tagOf s b a.addr))
      (clock c.ticks) (setOf s b a.addr) lines) := by
  have hset := setOf_lt s b a.addr
  have hp : 2 ^ s < 2 ^ 31 := Nat.pow_lt_pow_right (by omega) hg.set_num
  have hindex : toInt32 (BitVec.ofNat 64 (setOf s b a.addr)).toInt = setOf s b a.addr := by
    rw [toInt_ofNat_long (by omega), toInt32_small (by omega)]
  have hat : set_at c.sets (setOf s b a.addr) = some lines := by
    rw [set_at, if_neg (by omega), Int.toNat_natCast, hl]
  unfold deal_with_access
  rw [hd, GET_TAG_eq hg, GET_SET_eq hg, Bool.not_true, if_neg (by decide)]
  simp only [Option.bind_eq_bind, Option.bind_some, hindex, hat, Int.toNat_natCast,
    toInt_ofNat_long (tagOf_lt hg.tag a.addr)]
  rfl

/-! ### Counters -/

def Counts.map {α β : Type} (f : α → β) (k : Counts α) : Counts β :=
  ⟨f k.hit, f k.miss, f k.eviction⟩

/-- Numbers that are counted in `int`s. -/
def Counts.ints (k : Counts Nat) : Counts CInt := k.map (BitVec.ofNat 32)

/-- No number is too large for an `int`. -/
structure Counts.Fit (k : Counts Nat) : Prop where
  hit : k.hit < 2 ^ 31
  miss : k.miss < 2 ^ 31
  eviction : k.eviction < 2 ^ 31

/-- An `int` is the number that it was counted to exactly when that fits. -/
theorem toInt_eq_iff (x : CInt) (n : Nat) : x.toInt = n ↔ x = BitVec.ofNat 32 n ∧ n < 2 ^ 31 := by
  have hn : (BitVec.ofNat 32 n).toNat = n % 2 ^ 32 := rfl
  constructor
  · intro h
    have hlt := @BitVec.toInt_lt 32 x
    have hfit : n < 2 ^ 31 := by omega
    refine ⟨BitVec.eq_of_toInt_eq ?_, hfit⟩
    rw [h, BitVec.toInt_eq_toNat_of_lt (by omega), hn]
    omega
  · rintro ⟨rfl, hfit⟩
    rw [BitVec.toInt_eq_toNat_of_lt (by omega), hn]
    omega

theorem counts_eq_iff (x : Counts CInt) (k : Counts Nat) :
    x.map BitVec.toInt = k.map Nat.cast ↔ x = k.ints ∧ k.Fit := by
  obtain ⟨h, m, e⟩ := x
  simp only [Counts.map, Counts.ints, Counts.mk.injEq, toInt_eq_iff]
  constructor
  · rintro ⟨⟨h1, f1⟩, ⟨h2, f2⟩, h3, f3⟩
    exact ⟨⟨h1, h2, h3⟩, f1, f2, f3⟩
  · rintro ⟨⟨h1, h2, h3⟩, f1, f2, f3⟩
    exact ⟨⟨h1, f1⟩, ⟨h2, f2⟩, h3, f3⟩

/-- What a turn of the loop counts. -/
theorem serve_counts {c : Csim} {k : Counts Nat} (hk : c.counts = k.ints) (op : Char) (t now : Int)
    (i : Nat) (lines : List Line) : (c.serve op t now i lines).counts =
      (k.add op (find_line t lines).isSome
        ((find_line t lines).isNone && (find_store lines).2)).ints := by
  unfold Csim.serve
  simp only [hk, Counts.add, Counts.ints, Counts.map, BitVec.ofNat_add]
  cases find_line t lines <;> cases (find_store lines).2 <;> by_cases hM : op = 'M' <;> simp [hM]

/-- The counts of an access depend on the blocks in its set alone, not on the readings. -/
theorem serve_counts_held {E : Nat} (hE : 1 ≤ E) {c : Csim} {k : Counts Nat}
    (hk : c.counts = k.ints) (op : Char) {t : Nat} (now : Int) (i : Nat) {lines : List Line}
    {tags : List Nat} (h : Holds E lines tags) : (c.serve op t now i lines).counts =
      (k.add op (t ∈ tags) (evicts E t tags)).ints := by
  have hs := find_store_evicts hE h
  obtain ⟨vs, h'⟩ := h
  have hf := find_line_isSome h' t
  have hnone : (find_line t lines).isNone = decide (t ∉ tags) := by
    rw [← Option.not_isSome, hf, decide_not]
  rw [serve_counts hk, hf, hnone, hs]
  rfl

/-! ## Runs -/

/-- Before the access `a`, either no block has to go or the clock tells which one. -/
def TellsOldest (s b E : Nat) (c : Csim) (r : Reference) (a : Access) : Prop :=
  isData a.op = true → evicts E (tagOf s b a.addr) (r.sets (setOf s b a.addr)) = true →
    ∀ old, (r.sets (setOf s b a.addr)).getLast? = some old →
      ∀ lines, c.sets[setOf s b a.addr]? = some lines → Stands lines old

/-- The simulator and the reference are in step. -/
structure InStep (s b E : Nat) (c : Csim) (r : Reference) : Prop where
  sets : ∀ i < 2 ^ s, ∃ lines, c.sets[i]? = some lines ∧ Holds E lines (r.sets i)
  counts : c.counts = r.counts.ints
  known : ∀ i, ∀ t ∈ r.sets i, ∃ addr, tagOf s b addr = t ∧ setOf s b addr = i

/-- The cache that `Cache_init` makes. -/
theorem Cache_init_eq {s : Nat} (hs : s < 31) (E : Nat) : Cache_init s E =
    some ⟨List.replicate (2 ^ s) (List.replicate E blank), ⟨0, 0, 0⟩, 0⟩ := by
  have hp : 2 ^ s < 2 ^ 31 := Nat.pow_lt_pow_right (by omega) hs
  have hnum : ((1 : CInt) <<< s).toNat = 2 ^ s := by
    rw [BitVec.toNat_shiftLeft, show (1 : CInt).toNat = 1 from rfl, Nat.one_shiftLeft]
    exact Nat.mod_eq_of_lt (by omega)
  rw [Cache_init, one_shl, if_pos hs, Option.map_some, hnum]

theorem inStep_init {s : Nat} (hs : s < 31) (b E : Nat) :
    ∃ c, Cache_init s E = some c ∧ InStep s b E c emptyReference := by
  refine ⟨_, Cache_init_eq hs E, ?_, rfl, fun _ _ ht => absurd ht List.not_mem_nil⟩
  intro i hi
  exact ⟨List.replicate E blank, List.getElem?_replicate_of_lt hi, holds_blank E⟩

section Step

variable {s b E : Nat} {c : Csim} {r : Reference} {a : Access}

/-- An access is counted as by the reference, whatever the clock says. -/
theorem InStep.counts_access (hE : 1 ≤ E) (hg : ShiftsDefined s b) (clock : Nat → Int)
    (h : InStep s b E c r) (ht : tagOf s b a.addr < 2 ^ 31) :
    ∃ c', deal_with_access s b clock c a = some c' ∧
      c'.counts = (refAccess s b E r a).counts.ints := by
  cases hd : isData a.op with
  | false =>
    refine ⟨c, access_skips hd, ?_⟩
    rw [refAccess_skips hd]
    exact h.counts
  | true =>
    obtain ⟨lines, hl, hh⟩ := h.sets _ (setOf_lt s b a.addr)
    refine ⟨_, access_eq hg clock hd hl, ?_⟩
    rw [toInt32_small ht, serve_counts_held hE h.counts a.op _ _ hh, refAccess_data hd]

/-- Every block of the reference is the block of an address. -/
theorem InStep.known_access (h : InStep s b E c r) :
    ∀ i, ∀ t ∈ (refAccess s b E r a).sets i, ∃ addr, tagOf s b addr = t ∧ setOf s b addr = i := by
  intro i t hmem
  cases hd : isData a.op with
  | false =>
    rw [refAccess_skips hd] at hmem
    exact h.known i t hmem
  | true =>
    rw [refAccess_data hd] at hmem
    by_cases hi : i = setOf s b a.addr
    · subst hi
      simp only [Function.update_self] at hmem
      rcases mem_touch hmem with rfl | hmem
      · exact ⟨a.addr, rfl, rfl⟩
      · exact h.known _ t hmem
    · simp only [Function.update_of_ne hi] at hmem
      exact h.known i t hmem

theorem InStep.access (hE : 1 ≤ E) (hg : ShiftsDefined s b) (clock : Nat → Int)
    (h : InStep s b E c r) (ht : tagOf s b a.addr < 2 ^ 31) (hold : TellsOldest s b E c r a) :
    ∃ c', deal_with_access s b clock c a = some c' ∧ InStep s b E c' (refAccess s b E r a) := by
  obtain ⟨c', hrun, hcounts⟩ := h.counts_access hE hg clock ht
  refine ⟨c', hrun, ?_, hcounts, h.known_access⟩
  cases hd : isData a.op with
  | false =>
    rw [access_skips hd] at hrun
    cases hrun
    rw [refAccess_skips hd]
    exact h.sets
  | true =>
    obtain ⟨lines, hl, hh⟩ := h.sets _ (setOf_lt s b a.addr)
    rw [access_eq hg clock hd hl, toInt32_small ht] at hrun
    cases hrun
    intro i hi
    rw [refAccess_data hd, serve_sets]
    by_cases he : i = setOf s b a.addr
    · subst he
      obtain ⟨hlt, -⟩ := List.getElem?_eq_some_iff.mp hl
      simp only [Function.update_self, List.getElem?_set_self hlt]
      exact ⟨_, rfl, stored_holds hE hh ht _ fun hev old ho => hold hd hev old ho lines hl⟩
    · simp only [Function.update_of_ne he, List.getElem?_set_ne fun e => he e.symm]
      exact h.sets i hi

/-- A load of the block that an access has thrown out misses in the reference. -/
theorem refAccess_thrown_out {old : Nat} {x : Word} (hd : isData a.op = true)
    (he : evicts E (tagOf s b a.addr) (r.sets (setOf s b a.addr)) = true)
    (hold : (r.sets (setOf s b a.addr)).getLast? = some old)
    (hn : (r.sets (setOf s b a.addr)).Nodup) (hx : tagOf s b x = old)
    (hset : setOf s b x = setOf s b a.addr) :
    (refAccess s b E (refAccess s b E r a) ⟨'L', x, 1⟩).counts.hit =
      (refAccess s b E r a).counts.hit := by
  have hsets : (refAccess s b E r a).sets (setOf s b x) =
      touch E (tagOf s b a.addr) (r.sets (setOf s b a.addr)) := by
    rw [refAccess_data hd, hset]
    exact Function.update_self ..
  have hgone : old ∉ touch E (tagOf s b a.addr) (r.sets (setOf s b a.addr)) := by
    simp only [evicts, Bool.and_eq_true, decide_eq_true_eq, beq_iff_eq] at he
    have hne := List.ne_nil_of_mem (List.mem_of_getLast? hold)
    rw [List.getLast?_eq_some_getLast hne, Option.some_inj] at hold
    rw [← hold]
    exact getLast_not_mem_touch hne hn he.1 he.2
  generalize refAccess s b E r a = r' at hsets
  simp [refAccess, isData, hsets, hx, hgone, Counts.add]

/-- Where the clock does not tell the oldest block, the next access to that block hits in
csim and misses in the reference. -/
theorem InStep.parts (hE : 1 ≤ E) (hg : ShiftsDefined s b) (clock : Nat → Int)
    (h : InStep s b E c r) (ht : tagOf s b a.addr < 2 ^ 31) (hnot : ¬TellsOldest s b E c r a) :
    ∃ x, tagOf s b x < 2 ^ 31 ∧ ∀ c₁ c₂, deal_with_access s b clock c a = some c₁ →
      deal_with_access s b clock c₁ ⟨'L', x, 1⟩ = some c₂ →
      c₂.counts ≠ (refAccess s b E (refAccess s b E r a) ⟨'L', x, 1⟩).counts.ints := by
  unfold TellsOldest at hnot
  push Not at hnot
  obtain ⟨hd, he, old, hold, lines, hl, hstands⟩ := hnot
  have hmem := List.mem_of_getLast? hold
  obtain ⟨x, hx, hset⟩ := h.known _ old hmem
  obtain ⟨lines', hl', hh⟩ := h.sets _ (setOf_lt s b a.addr)
  cases hl.symm.trans hl'
  obtain ⟨vs, hvs⟩ := hh
  have hsmall : tagOf s b x < 2 ^ 31 := by
    rw [hx]
    exact hvs.small old hmem
  refine ⟨x, hsmall, ?_⟩
  intro c₁ c₂ h₁ h₂ hcounts
  obtain ⟨c', hc', hk⟩ := h.counts_access hE hg clock ht
  rw [h₁] at hc'
  cases hc'
  have hin := stored_keeps_oldest ⟨vs, hvs⟩ (clock c.ticks) he hold hstands
  rw [access_eq hg clock hd hl, toInt32_small ht] at h₁
  obtain ⟨hlt, -⟩ := List.getElem?_eq_some_iff.mp hl
  have hl₁ : c₁.sets[setOf s b x]? = some (stored (tagOf s b a.addr) (clock c.ticks) lines) := by
    cases h₁
    rw [serve_sets, hset, List.getElem?_set_self hlt]
  -- csim still has the block
  have hload : isData 'L' = true := rfl
  rw [access_eq hg clock (a := ⟨'L', x, 1⟩) hload hl₁, toInt32_small hsmall, hx] at h₂
  have hhit : c₂.counts.hit = BitVec.ofNat 32 ((refAccess s b E r a).counts.hit + 1) := by
    cases h₂
    rw [serve_counts hk, hin]
    rfl
  have hmiss := refAccess_thrown_out hd he hold hvs.nodup hx hset
  have hsame : BitVec.ofNat 32 ((refAccess s b E r a).counts.hit + 1) =
      BitVec.ofNat 32 (refAccess s b E r a).counts.hit := by
    rw [← hhit, hcounts, ← hmiss]
    rfl
  have hnat := congrArg BitVec.toNat hsame
  simp only [BitVec.toNat_ofNat] at hnat
  omega

end Step

/-! ## A clock that rises -/

/-- The readings up to call `n` rise, also as `int`s. -/
def Rises (clock : Nat → Int) (n : Nat) : Prop :=
  ∀ i j, i < j → j < n → toInt32 (clock i) < toInt32 (clock j)

/-- The lines carry readings of the first `n` calls, a later one for a block accessed later. -/
structure Aged (clock : Nat → Int) (n : Nat) (lines : List Line) (tags : List Nat) : Prop where
  read : ∀ x ∈ lines, x.valid = true → ∃ i < n, x.used_time = toInt32 (clock i)
  order : tags.Pairwise fun (t u : Nat) => ∀ x ∈ lines, ∀ y ∈ lines, x.valid = true →
    y.valid = true → x.tag = t → y.tag = u → y.used_time < x.used_time

theorem HoldsIn.tag_inj {E : Nat} {vs lines : List Line} {tags : List Nat}
    (h : HoldsIn E vs lines tags) {m j : Nat} {x y : Line} (hx : lines[m]? = some x)
    (hy : lines[j]? = some y) (hxv : x.valid = true) (hyv : y.valid = true)
    (ht : x.tag = y.tag) : m = j := by
  have hin : ∀ {i : Nat} {z : Line}, lines[i]? = some z → z.valid = true →
      (vs.map Line.tag)[i]? = some z.tag := by
    intro i z hz hv
    rw [h.shape] at hz
    by_cases hi : i < vs.length
    · rw [List.getElem?_append_left hi] at hz
      rw [List.getElem?_map, hz]
      rfl
    · rw [List.getElem?_append_right (by omega)] at hz
      have := List.eq_of_mem_replicate (List.mem_of_getElem? hz)
      rw [this] at hv
      cases hv
  have hnodup : (vs.map Line.tag).Nodup :=
    h.perm.nodup_iff.mpr (h.nodup.map fun _ _ e => by exact_mod_cast e)
  have h1 := hin hx hxv
  have h2 := hin hy hyv
  rw [ht] at h1
  obtain ⟨hm, h1⟩ := List.getElem?_eq_some_iff.mp h1
  obtain ⟨hj, h2⟩ := List.getElem?_eq_some_iff.mp h2
  exact (hnodup.getElem_inj_iff).mp (h1.trans h2.symm)

/-- The block accessed last in the reference order stands out in a set with its ages. -/
theorem Aged.stands {clock : Nat → Int} {n E : Nat} {lines : List Line} {tags : List Nat}
    (ha : Aged clock n lines tags) (h : Holds E lines tags) (hE : tags.length = E) {old : Nat}
    (hold : tags.getLast? = some old) : Stands lines old := by
  obtain ⟨vs, h⟩ := h
  have hvs := h.full hE
  obtain ⟨l, hl, htag⟩ := (h.mem_iff old).mp (List.mem_of_getLast? hold)
  obtain ⟨j, hj⟩ := List.getElem?_of_mem hl
  rw [← hvs] at hj
  refine ⟨j, l, ⟨hj, fun m x hm => ?_⟩, htag⟩
  have hlv := h.valid l hl
  have hxm := List.mem_of_getElem? hm
  have hxv := h.valid x (by rw [← hvs]; exact hxm)
  by_cases hx : x.tag = l.tag
  · have hmj := h.tag_inj hm hj hxv hlv hx
    subst hmj
    cases hm.symm.trans hj
    exact ⟨Int.le_refl _, by omega⟩
  · have hmem : ∃ t ∈ tags, x.tag = (t : Int) := by
      have := h.perm.subset (List.mem_map_of_mem (by rw [← hvs]; exact hxm))
      obtain ⟨t, ht, he⟩ := List.mem_map.mp this
      exact ⟨t, ht, he.symm⟩
    obtain ⟨t, ht, hxt⟩ := hmem
    have hne : tags ≠ [] := List.ne_nil_of_mem ht
    rw [List.getLast?_eq_some_getLast hne, Option.some_inj] at hold
    have hdrop : t ∈ tags.dropLast := by
      have hsplit := List.dropLast_append_getLast hne
      rw [← hsplit, List.mem_append, List.mem_singleton, hold] at ht
      rcases ht with ht | rfl
      · exact ht
      · exact absurd (hxt.trans htag.symm) hx
    have hlt : l.used_time < x.used_time := by
      have horder := ha.order
      rw [← List.dropLast_append_getLast hne, List.pairwise_append] at horder
      exact horder.2.2 t hdrop _ (List.mem_singleton_self _) x hxm l
        (List.mem_of_getElem? hj) hxv hlv hxt (by rw [hold, htag])
    exact ⟨Int.le_of_lt hlt, fun _ => hlt⟩

theorem Aged.later {clock : Nat → Int} {n : Nat} {lines : List Line} {tags : List Nat}
    (ha : Aged clock n lines tags) : Aged clock (n + 1) lines tags := by
  refine ⟨fun x hx hv => ?_, ha.order⟩
  obtain ⟨i, hi, he⟩ := ha.read x hx hv
  exact ⟨i, by omega, he⟩

/-- An access puts its block in front, with the latest reading. -/
theorem Aged.after {clock : Nat → Int} {n E t : Nat} {lines : List Line} {tags : List Nat}
    (ha : Aged clock n lines tags) (hr : Rises clock (n + 1))
    (h' : Holds E (stored t (clock n) lines) (touch E t tags)) (hlt : lineFor t lines < lines.length) :
    Aged clock (n + 1) (stored t (clock n) lines) (touch E t tags) := by
  obtain ⟨vs, h'⟩ := h'
  obtain ⟨rest, hrest, hsub⟩ := touch_tail_sublist E t tags
  have hnew : (stored t (clock n) lines)[lineFor t lines]? =
      some (update_cache t (clock n)) := by
    unfold stored
    rw [List.getElem?_set_self hlt]
  have hmem : ∀ x ∈ stored t (clock n) lines, x = update_cache t (clock n) ∨ x ∈ lines :=
    fun x hx => (List.mem_or_eq_of_mem_set hx).symm
  -- the new line is the only one with its tag
  have honly : ∀ x ∈ stored t (clock n) lines, x.valid = true → x.tag = t →
      x = update_cache t (clock n) := by
    intro x hx hv ht
    obtain ⟨m, hm⟩ := List.getElem?_of_mem hx
    have := h'.tag_inj hm hnew hv rfl ht
    subst this
    exact Option.some.inj (hm.symm.trans hnew)
  have hold : ∀ x ∈ lines, x.valid = true → x.used_time < toInt32 (clock n) := by
    intro x hx hv
    obtain ⟨i, hi, he⟩ := ha.read x hx hv
    rw [he]
    exact hr i n hi (by omega)
  have hnot : ∀ u ∈ rest, u ≠ t := by
    intro u hu hut
    have hn := h'.nodup
    rw [hrest] at hn
    exact (List.nodup_cons.mp hn).1 (hut ▸ hu)
  have hkept : ∀ u ∈ rest, ∀ x ∈ stored t (clock n) lines, x.tag = (u : Int) → x ∈ lines := by
    intro u hu x hx hxu
    rcases hmem x hx with rfl | hx
    · have hut : (t : Int) = u := hxu
      exact absurd (by exact_mod_cast hut.symm) (hnot u hu)
    · exact hx
  refine ⟨?_, ?_⟩
  · intro x hx hv
    rcases hmem x hx with rfl | hx
    · exact ⟨n, by omega, rfl⟩
    · exact ha.later.read x hx hv
  · rw [hrest, List.pairwise_cons]
    constructor
    · intro u hu x hx y hy hxv hyv hxt hyu
      rw [honly x hx hxv hxt]
      exact hold y (hkept u hu y hy hyu) hyv
    · refine (ha.order.sublist hsub).imp_of_mem ?_
      intro a b hma hmb hab x hx y hy hxv hyv hxa hyb
      exact hab x (hkept a hma x hx hxa) y (hkept b hmb y hy hyb) hxv hyv hxa hyb

theorem Holds.length_eq {E : Nat} {lines : List Line} {tags : List Nat}
    (h : Holds E lines tags) : lines.length = E := by
  obtain ⟨vs, h⟩ := h
  have hfits := h.fits
  rw [h.shape, List.length_append, List.length_replicate]
  omega

theorem lineFor_lt {E : Nat} (hE : 1 ≤ E) {lines : List Line} {tags : List Nat}
    (h : Holds E lines tags) (t : Nat) : lineFor t lines < lines.length := by
  rw [h.length_eq]
  obtain ⟨vs, h⟩ := h
  have hfits := h.fits
  unfold lineFor
  cases hf : find_line t lines with
  | some i =>
    obtain ⟨hi, -⟩ := List.getElem?_eq_some_iff.mp (find_line_some h hf)
    rw [List.length_map] at hi
    rw [Option.getD_some]
    omega
  | none =>
    rw [Option.getD_none]
    by_cases hfull : tags.length = E
    · have hlen := h.length_eq
      rw [h.full hfull]
      obtain ⟨j, l, hs, hleast⟩ := find_store_full h.valid (by rw [← List.length_pos_iff]; omega)
      obtain ⟨hj, -⟩ := List.getElem?_eq_some_iff.mp hleast.1
      rw [hs]
      omega
    · have hlen := h.length_eq
      obtain ⟨k, hk⟩ : ∃ k, E - vs.length = k + 1 := ⟨E - vs.length - 1, by omega⟩
      rw [h.shape, hk, List.replicate_succ, find_store_free h.valid rfl]
      omega

/-! ## The laws -/

/-- All tags fit in a non-negative `int`. -/
def Fits (s b : Nat) (trace : List Access) : Prop := ∀ a ∈ trace, tagOf s b a.addr < 2 ^ 31

instance (s b : Nat) (trace : List Access) : Decidable (Fits s b trace) :=
  inferInstanceAs (Decidable (∀ a ∈ trace, _))

/-- csim has a result, and its counts are those of the reference. -/
def CountsAgree (s b E : Nat) (clock : Nat → Int) (trace : List Access) : Prop :=
  (deal_with_file s b E clock trace).map (fun c => c.counts.map BitVec.toInt) =
    some ((refRun s b E trace).counts.map Nat.cast)

instance (s b E : Nat) (clock : Nat → Int) (trace : List Access) :
    Decidable (CountsAgree s b E clock trace) := inferInstanceAs (Decidable (_ = _))

/-- At every access of the trace where a block has to go, the clock tells the oldest. -/
def TellsOldestAlong (s b E : Nat) (clock : Nat → Int) (trace : List Access) : Prop :=
  ∀ p a q, trace = p ++ a :: q → ∀ c, deal_with_file s b E clock p = some c →
    TellsOldest s b E c (refRun s b E p) a

theorem run_snoc (s b E : Nat) (clock : Nat → Int) (p : List Access) (a : Access) :
    deal_with_file s b E clock (p ++ [a]) =
      (deal_with_file s b E clock p).bind fun c => deal_with_access s b clock c a := by
  rw [deal_with_file, deal_with_file, Option.bind_assoc]
  congr 1
  funext c
  rw [exec_append]
  congr 1
  funext d
  exact Option.bind_fun_some _

theorem refRun_snoc (s b E : Nat) (p : List Access) (a : Access) :
    refRun s b E (p ++ [a]) = refAccess s b E (refRun s b E p) a := by
  simp [refRun]

theorem Fits.left {s b : Nat} {p q : List Access} (h : Fits s b (p ++ q)) : Fits s b p :=
  fun a ha => h a (List.mem_append_left q ha)

theorem TellsOldestAlong.left {s b E : Nat} {clock : Nat → Int} {p q : List Access}
    (h : TellsOldestAlong s b E clock (p ++ q)) : TellsOldestAlong s b E clock p := by
  intro p' a q' hp
  exact h p' a (q' ++ q) (by rw [hp]; simp)

/-- csim has counted as the reference has, up to the width of an `int`. -/
theorem countsAgree_iff {s b E : Nat} {clock : Nat → Int} {trace : List Access} {c : Csim}
    (hrun : deal_with_file s b E clock trace = some c)
    (hk : c.counts = (refRun s b E trace).counts.ints) :
    CountsAgree s b E clock trace ↔ (refRun s b E trace).counts.Fit := by
  rw [CountsAgree, hrun, Option.map_some, Option.some_inj, counts_eq_iff]
  exact and_iff_right hk

section Run

variable {s b E : Nat} {clock : Nat → Int} {trace : List Access}

theorem run_inStep (hE : 1 ≤ E) (hg : ShiftsDefined s b) (hfit : Fits s b trace)
    (h : TellsOldestAlong s b E clock trace) :
    ∃ c, deal_with_file s b E clock trace = some c ∧ InStep s b E c (refRun s b E trace) := by
  induction trace using List.reverseRecOn with
  | nil =>
    obtain ⟨c, hc, hi⟩ := inStep_init hg.set_num b E
    refine ⟨c, ?_, hi⟩
    rw [deal_with_file, hc]
    rfl
  | append_singleton p a ih =>
    obtain ⟨c, hc, hi⟩ := ih hfit.left h.left
    rw [run_snoc, refRun_snoc, hc]
    exact hi.access hE hg clock (hfit a (by simp)) (h p a [] rfl c hc)

/-- The counts after one more access. -/
theorem run_counts (hE : 1 ≤ E) (hg : ShiftsDefined s b) (hfit : Fits s b trace)
    (h : TellsOldestAlong s b E clock trace) {a : Access} (ha : Fits s b [a]) :
    ∃ c, deal_with_file s b E clock (trace ++ [a]) = some c ∧
      c.counts = (refRun s b E (trace ++ [a])).counts.ints := by
  obtain ⟨c, hc, hi⟩ := run_inStep hE hg hfit h
  rw [run_snoc, refRun_snoc, hc]
  exact hi.counts_access hE hg clock (ha a (by simp))

/-- A trace with an access of data shifts. -/
theorem shifts_of_run {c : Csim} (h : deal_with_file s b E clock [⟨'L', 0, 1⟩] = some c) :
    ShiftsDefined s b := by
  obtain ⟨c₀, hinit, h⟩ := Option.bind_eq_some_iff.mp h
  obtain ⟨c₁, h, -⟩ := Option.bind_eq_some_iff.mp h
  have hs : s < 31 := by
    by_contra hs
    rw [Cache_init, one_shl, if_neg hs] at hinit
    cases hinit
  obtain ⟨tag, htag, -⟩ := Option.bind_eq_some_iff.mp h
  have hsum : 1 < s + b ∧ s + b < 64 := by
    by_contra hsum
    rw [GET_TAG, if_neg hsum] at htag
    cases htag
  exact ⟨hs, hsum.1, hsum.2⟩

/-- Agreement after every prefix and one more access means that the clock told the oldest
block every time. -/
theorem tells_of_agree (hE : 1 ≤ E) (hg : ShiftsDefined s b) (hfit : Fits s b trace)
    (h : ∀ p q, trace = p ++ q → ∀ a, Fits s b [a] → CountsAgree s b E clock (p ++ [a])) :
    TellsOldestAlong s b E clock trace := by
  induction trace using List.reverseRecOn with
  | nil =>
    intro p a q hp
    simp at hp
  | append_singleton t z ih =>
    have ht := ih hfit.left fun p q hp a ha => h p (q ++ [z]) (by rw [hp]; simp) a ha
    intro p a q hp c hc
    rcases List.eq_nil_or_concat q with rfl | ⟨q, y, rfl⟩
    · obtain ⟨rfl, ha⟩ := List.append_inj' hp rfl
      cases ha
      by_contra hnot
      obtain ⟨c', hc', hi⟩ := run_inStep hE hg hfit.left ht
      cases hc.symm.trans hc'
      obtain ⟨x, hx, hne⟩ := hi.parts hE hg clock (hfit z (by simp)) hnot
      have hagree := h (t ++ [z]) [] (by simp) ⟨'L', x, 1⟩ (by simpa [Fits] using hx)
      obtain ⟨c₂, hc₂, heq⟩ := Option.map_eq_some_iff.mp hagree
      have hc₁ := hc₂
      rw [run_snoc, Option.bind_eq_some_iff] at hc₁
      obtain ⟨c₁, hc₁, hload⟩ := hc₁
      rw [run_snoc, hc, Option.bind_some] at hc₁
      refine hne c₁ c₂ hc₁ hload ?_
      rw [← refRun_snoc, ← refRun_snoc]
      exact ((counts_eq_iff _ _).mp heq).1
    · have hp' : t ++ [z] = (p ++ a :: q) ++ [y] := by rw [hp]; simp
      exact ht p a q (List.append_inj' hp' rfl).1 c hc

end Run

/-- While the shifts are defined, the clock tells the oldest block whenever one has to go and
the counters are wide enough, the counts are those of the reference cache; and only then do
they stay so under any next access. -/
theorem the_counts_are_those_of_lru (s b E : Nat) (hE : 1 ≤ E) (clock : Nat → Int)
    (trace : List Access) (hfit : Fits s b trace) :
    (ShiftsDefined s b → TellsOldestAlong s b E clock trace → (refRun s b E trace).counts.Fit →
      CountsAgree s b E clock trace) ∧
    ((∀ p q, trace = p ++ q → ∀ a, Fits s b [a] → CountsAgree s b E clock (p ++ [a])) ↔
      ShiftsDefined s b ∧ TellsOldestAlong s b E clock trace ∧
        ∀ p q, trace = p ++ q → ∀ a, Fits s b [a] → (refRun s b E (p ++ [a])).counts.Fit) := by
  constructor
  · intro hg htells hcounts
    obtain ⟨c, hc, hi⟩ := run_inStep hE hg hfit htells
    exact (countsAgree_iff hc hi.counts).mpr hcounts
  constructor
  · intro h
    have hzero : Fits s b [⟨'L', 0, 1⟩] := by simp [Fits, tagOf]
    obtain ⟨c, hc, -⟩ := Option.map_eq_some_iff.mp (h [] trace rfl _ hzero)
    have hg := shifts_of_run hc
    have htells := tells_of_agree hE hg hfit h
    refine ⟨hg, htells, ?_⟩
    intro p q hp a ha
    subst hp
    obtain ⟨c, hc, hk⟩ := run_counts hE hg hfit.left htells.left ha
    exact (countsAgree_iff hc hk).mp (h p q rfl a ha)
  · rintro ⟨hg, htells, hcounts⟩ p q hp a ha
    have hfits := hcounts p q hp a ha
    subst hp
    obtain ⟨c, hc, hk⟩ := run_counts hE hg hfit.left htells.left ha
    exact (countsAgree_iff hc hk).mpr hfits

theorem TellsOldestAlong.snoc {s b E : Nat} {clock : Nat → Int} {p : List Access} {a : Access}
    (h : TellsOldestAlong s b E clock p)
    (ha : ∀ c, deal_with_file s b E clock p = some c → TellsOldest s b E c (refRun s b E p) a) :
    TellsOldestAlong s b E clock (p ++ [a]) := by
  intro p' a' q' hp
  rcases List.eq_nil_or_concat q' with rfl | ⟨q', y, rfl⟩
  · obtain ⟨rfl, he⟩ := List.append_inj' hp rfl
    cases he
    exact ha
  · have hp' : p ++ [a] = (p' ++ a' :: q') ++ [y] := by rw [hp]; simp
    exact h p' a' q' (List.append_inj' hp' rfl).1

/-- The run on `trace` keeps the ages of the blocks in order. -/
structure AgedRun (s b E : Nat) (clock : Nat → Int) (trace : List Access) (c : Csim) : Prop where
  run : deal_with_file s b E clock trace = some c
  ticks : c.ticks ≤ trace.length
  aged : ∀ i lines, c.sets[i]? = some lines →
    Aged clock c.ticks lines ((refRun s b E trace).sets i)

/-- So does a run under a clock that rises. -/
theorem rising_run {s b E : Nat} (hE : 1 ≤ E) (hg : ShiftsDefined s b) {clock : Nat → Int}
    {trace : List Access} (hfit : Fits s b trace) (hr : Rises clock trace.length) :
    TellsOldestAlong s b E clock trace ∧ ∃ c, AgedRun s b E clock trace c := by
  induction trace using List.reverseRecOn with
  | nil =>
    refine ⟨fun p a q hp => by simp at hp, _, by rw [deal_with_file, Cache_init_eq hg.set_num]; rfl,
      Nat.le_refl 0, ?_⟩
    · intro i lines hl
      refine ⟨fun x hx hv => ?_, List.Pairwise.nil⟩
      rw [List.eq_of_mem_replicate (List.mem_of_getElem? hl)] at hx
      rw [List.eq_of_mem_replicate hx] at hv
      cases hv
  | append_singleton p a ih =>
    rw [List.length_append, List.length_singleton] at hr
    obtain ⟨htells, c, hc, hticks, haged⟩ :=
      ih hfit.left fun i j hij hj => hr i j hij (by omega)
    obtain ⟨c', hc', hstep⟩ := run_inStep hE hg hfit.left htells
    cases hc.symm.trans hc'
    have hsmall := hfit a (by simp)
    have hnow : TellsOldest s b E c (refRun s b E p) a := by
      intro _ he old hold lines hl
      simp only [evicts, Bool.and_eq_true, beq_iff_eq] at he
      obtain ⟨lines', hl', hh⟩ := hstep.sets _ (setOf_lt s b a.addr)
      cases hl.symm.trans hl'
      exact (haged _ lines hl).stands hh he.2 hold
    obtain ⟨c', hnext, hstep'⟩ := hstep.access hE hg clock hsmall hnow
    refine ⟨htells.snoc fun d hd => by cases hc.symm.trans hd; exact hnow, c', ?_⟩
    have hrun : deal_with_file s b E clock (p ++ [a]) = some c' := by
      rw [run_snoc, hc]
      exact hnext
    cases hd : isData a.op with
    | false =>
      rw [access_skips hd] at hnext
      cases hnext
      refine ⟨hrun, ?_, ?_⟩
      · rw [List.length_append]
        omega
      · rw [refRun_snoc, refAccess_skips hd]
        exact haged
    | true =>
      obtain ⟨lines, hl, hh⟩ := hstep.sets _ (setOf_lt s b a.addr)
      obtain ⟨hlt, -⟩ := List.getElem?_eq_some_iff.mp hl
      rw [access_eq hg clock hd hl, toInt32_small hsmall] at hnext
      cases hnext
      refine ⟨hrun, ?_, ?_⟩
      · rw [List.length_append]
        show c.ticks + 1 ≤ _
        simp only [List.length_singleton]
        omega
      · intro i lines' hl'
        obtain ⟨lines'', hl'', hh'⟩ := hstep'.sets (setOf s b a.addr) (setOf_lt s b a.addr)
        rw [serve_sets] at hl' hl''
        have hrsets : (refRun s b E (p ++ [a])).sets =
            Function.update (refRun s b E p).sets (setOf s b a.addr)
              (touch E (tagOf s b a.addr) ((refRun s b E p).sets (setOf s b a.addr))) := by
          rw [refRun_snoc, refAccess_data hd]
        rw [← refRun_snoc, hrsets] at hh'
        rw [hrsets]
        by_cases hi : i = setOf s b a.addr
        · subst hi
          rw [List.getElem?_set_self hlt] at hl' hl''
          cases hl'
          cases hl''
          rw [Function.update_self] at hh' ⊢
          exact (haged _ lines hl).after (fun i j hij hj => hr i j hij (by omega)) hh'
            (lineFor_lt hE hh _)
        · rw [List.getElem?_set_ne fun e => hi e.symm] at hl'
          rw [Function.update_of_ne hi]
          exact (haged i lines' hl').later

/-- Under a clock whose readings rise from access to access, csim counts what the reference
cache counts. -/
theorem a_rising_clock_keeps_lru {s b E : Nat} (hE : 1 ≤ E) (hg : ShiftsDefined s b)
    {clock : Nat → Int} {trace : List Access} (hfit : Fits s b trace)
    (hr : Rises clock trace.length) (hcounts : (refRun s b E trace).counts.Fit) :
    CountsAgree s b E clock trace := by
  obtain ⟨c, hc, hi⟩ := run_inStep hE hg hfit (rising_run hE hg hfit hr).1
  exact (countsAgree_iff hc hi.counts).mpr hcounts

/-- Loads of one set of the cache with `s = 1` and `b = 1`, one for each tag. -/
def loads (tags : List Nat) : List Access := tags.map fun t => ⟨'L', BitVec.ofNat 64 (4 * t), 1⟩

/-- Two lines, a clock that stands still, and the block of tag 0 read once more: csim then
throws it out for tag 2 and misses it at the end. -/
theorem a_clock_that_stands_still_breaks_lru :
    ¬∀ (s b E : Nat) (clock : Nat → Int) (trace : List Access), 1 ≤ s → 1 ≤ b → 1 ≤ E →
      Monotone clock → Fits s b trace → CountsAgree s b E clock trace := by
  intro h
  have := h 1 1 2 (fun _ => 0) (loads [0, 1, 0, 2, 0]) (by decide) (by decide) (by decide)
    (fun _ _ _ => Int.le_refl 0) (by decide)
  revert this
  decide

/-- With a clock that ticks between the accesses, the same trace is counted as it should. -/
theorem a_clock_that_ticks_keeps_lru :
    CountsAgree 1 1 2 (fun i => i) (loads [0, 1, 0, 2, 0]) := by
  have hg : ShiftsDefined 1 1 := ⟨by decide, by decide, by decide⟩
  have hrises : Rises (fun i => i) (loads [0, 1, 0, 2, 0]).length := by
    intro i j hij hj
    have hj5 : j < 5 := hj
    rw [toInt32_small (by omega), toInt32_small (by omega)]
    omega
  refine (the_counts_are_those_of_lru 1 1 2 (by decide) (fun i => i) (loads [0, 1, 0, 2, 0])
    (by decide)).1 hg (rising_run (by decide) hg (by decide) hrises).1 ⟨?_, ?_, ?_⟩ <;> decide

end ics_labs.csim
