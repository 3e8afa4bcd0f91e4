-- The three counters of csim against what the cache holds and against the trace.
-- Nothing here depends on what the clock reads.
import IcsLabs.CsimLru

open ics_labs.memory ics_labs.runs

namespace ics_labs.csim

/-! ## One set -/

/-- The lines `vs` in front are valid and have different tags, and no line behind is valid. -/
structure TidyIn (E : Nat) (vs rest lines : List Line) : Prop where
  shape : lines = vs ++ rest
  length : lines.length = E
  valid : ∀ l ∈ vs, l.valid = true
  free : ∀ l ∈ rest, l.valid = false
  nodup : (vs.map Line.tag).Nodup

def Tidy (E : Nat) (lines : List Line) : Prop := ∃ vs rest, TidyIn E vs rest lines

/-- The number of valid lines. -/
def valids (lines : List Line) : Nat := lines.countP Line.valid

theorem tidy_blank (E : Nat) : Tidy E (List.replicate E blank) := by
  refine ⟨[], List.replicate E blank, by simp, by simp, by simp, ?_, List.nodup_nil⟩
  intro l hl
  rw [(List.mem_replicate.mp hl).2]
  rfl

theorem TidyIn.valids_eq {E : Nat} {vs rest lines : List Line} (h : TidyIn E vs rest lines) :
    valids lines = vs.length := by
  unfold valids
  rw [h.shape, List.countP_append, List.countP_eq_length.mpr h.valid,
    List.countP_eq_zero.mpr (by simpa using h.free), Nat.add_zero]

/-- A line that is found is one of the valid ones. -/
theorem TidyIn.find_line_some {E i : Nat} {vs rest lines : List Line} {t : Int}
    (h : TidyIn E vs rest lines) (hf : find_line t lines = some i) :
    i < vs.length ∧ (vs.map Line.tag)[i]? = some t := by
  rw [find_line, List.findIdx?_eq_some_iff_getElem, h.shape] at hf
  obtain ⟨hi, hp, -⟩ := hf
  simp only [Bool.and_eq_true, beq_iff_eq] at hp
  by_cases hlt : i < vs.length
  · rw [List.getElem_append_left hlt] at hp
    exact ⟨hlt, by simp [hlt, hp.2]⟩
  · rw [List.getElem_append_right (by omega)] at hp
    have hv := hp.1
    rw [h.free _ (List.getElem_mem _)] at hv
    cases hv

theorem TidyIn.find_line_none {E : Nat} {vs rest lines : List Line} {t : Int}
    (h : TidyIn E vs rest lines) (hf : find_line t lines = none) : t ∉ vs.map Line.tag := by
  rw [find_line, List.findIdx?_eq_none_iff, h.shape] at hf
  intro ht
  obtain ⟨l, hl, rfl⟩ := List.mem_map.mp ht
  have := hf l (by simp [hl])
  simp [h.valid l hl] at this

/-- A valid line with another tag, or the same one, takes the place of a valid line. -/
theorem TidyIn.replace {E i : Nat} {vs rest lines : List Line} {new : Line}
    (h : TidyIn E vs rest lines) (hi : i < vs.length) (hnew : new.valid = true)
    (ht : ((vs.map Line.tag).set i new.tag).Nodup) :
    TidyIn E (vs.set i new) rest (lines.set i new) := by
  refine ⟨?_, by rw [List.length_set, h.length], ?_, h.free, by rwa [List.map_set]⟩
  · rw [h.shape, List.set_append_left _ _ hi]
  · intro l hl
    rcases List.mem_or_eq_of_mem_set hl with hl | rfl
    · exact h.valid l hl
    · exact hnew

/-- A valid line takes the place of the first line that is not. -/
theorem TidyIn.fill {E : Nat} {vs rest lines : List Line} {y new : Line}
    (h : TidyIn E vs (y :: rest) lines) (hnew : new.valid = true)
    (ht : new.tag ∉ vs.map Line.tag) :
    TidyIn E (vs ++ [new]) rest (lines.set vs.length new) := by
  refine ⟨?_, by rw [List.length_set, h.length], ?_, fun l hl => h.free l (by simp [hl]), ?_⟩
  · rw [h.shape, List.set_append_right _ _ (Nat.le_refl _), Nat.sub_self, List.set_cons_zero]
    simp
  · intro l hl
    rcases List.mem_append.mp hl with hl | hl
    · exact h.valid l hl
    · rw [List.mem_singleton.mp hl]
      exact hnew
  · rw [List.map_append, List.map_singleton, List.nodup_append]
    refine ⟨h.nodup, List.nodup_singleton _, ?_⟩
    intro a ha b hb
    rw [List.mem_singleton.mp hb]
    rintro rfl
    exact ht ha

/-- A set after an access: it is tidy, and a valid line came to it when the access missed
and threw none out. -/
theorem stored_tidy {E : Nat} (hE : 1 ≤ E) {lines : List Line} (h : Tidy E lines) (t now : Int) :
    Tidy E (stored t now lines) ∧
      valids (stored t now lines) =
        valids lines + (if find_line t lines = none ∧ (find_store lines).2 = false then 1 else 0) := by
  obtain ⟨vs, rest, h⟩ := h
  unfold stored lineFor
  cases hf : find_line t lines with
  | some i =>
    obtain ⟨hi, ht⟩ := h.find_line_some hf
    have hset : (vs.map Line.tag).set i t = vs.map Line.tag := by
      obtain ⟨hlt, hget⟩ := List.getElem?_eq_some_iff.mp ht
      rw [← hget, List.set_getElem_self]
    have hnew : TidyIn E (vs.set i (update_cache t now)) rest (lines.set i (update_cache t now)) := by
      apply h.replace hi rfl
      show ((vs.map Line.tag).set i t).Nodup
      rw [hset]
      exact h.nodup
    refine ⟨⟨_, _, hnew⟩, ?_⟩
    rw [Option.getD_some, hnew.valids_eq, h.valids_eq, List.length_set]
    simp
  | none =>
    have ht := h.find_line_none hf
    rw [Option.getD_none]
    cases rest with
    | cons y rest =>
      have hs : find_store lines = (vs.length, false) := by
        rw [h.shape]
        exact find_store_free h.valid (h.free y (by simp))
      have hnew : TidyIn E (vs ++ [update_cache t now]) rest
          (lines.set vs.length (update_cache t now)) := h.fill rfl ht
      rw [hs]
      refine ⟨⟨_, _, hnew⟩, ?_⟩
      rw [hnew.valids_eq, h.valids_eq, List.length_append]
      simp
    | nil =>
      -- The set is full, and the least recently used line goes.
      have hlines : lines = vs := by simpa using h.shape
      have hne : lines ≠ [] := by
        intro he
        have := h.length
        rw [he, List.length_nil] at this
        omega
      obtain ⟨j, l, hs, hj, -⟩ := find_store_full (by rw [hlines]; exact h.valid) hne
      obtain ⟨hlt, -⟩ := List.getElem?_eq_some_iff.mp hj
      rw [hlines] at hlt
      have hnew : TidyIn E (vs.set j (update_cache t now)) [] (lines.set j (update_cache t now)) := by
        apply h.replace hlt rfl
        exact h.nodup.set ht
      rw [hs]
      refine ⟨⟨_, _, hnew⟩, ?_⟩
      rw [hnew.valids_eq, h.valids_eq, List.length_set]
      simp

/-! ## The whole cache -/

/-- The accesses that a record of the trace stands for: `M` is a load and a store. -/
def weight (op : Char) : Nat := if op = 'M' then 2 else if op = 'L' ∨ op = 'S' then 1 else 0

theorem sum_weight (trace : List Access) : (trace.map fun a => weight a.op).sum =
    trace.countP (·.op == 'L') + trace.countP (·.op == 'S') + 2 * trace.countP (·.op == 'M') := by
  induction trace with
  | nil => rfl
  | cons a trace ih =>
    rw [List.map_cons, List.sum_cons, ih, List.countP_cons, List.countP_cons, List.countP_cons]
    unfold weight
    by_cases hM : a.op = 'M'
    · simp [hM]
      omega
    · by_cases hL : a.op = 'L'
      · simp [hL]
        omega
      · by_cases hS : a.op = 'S'
        · simp [hS]
          omega
        · simp [hM, hL, hS]

/-- The number of valid lines in the cache. -/
def validLines (c : Csim) : Nat := (c.sets.map valids).sum

theorem sum_set {xs : List Nat} {i n : Nat} (h : xs[i]? = some n) (m : Nat) :
    (xs.set i m).sum + n = xs.sum + m := by
  induction xs generalizing i with
  | nil => simp at h
  | cons x xs ih =>
    cases i with
    | zero =>
      simp only [List.getElem?_cons_zero, Option.some.injEq] at h
      subst h
      simp only [List.set_cons_zero, List.sum_cons]
      omega
    | succ i =>
      have hi := ih (by simpa using h)
      simp only [List.set_cons_succ, List.sum_cons]
      omega

/-- What holds of the cache after the records `past` of the trace, when the numbers `k` have
been counted. -/
structure Counted (s E : Nat) (past : List Access) (c : Csim) (k : Counts Nat) : Prop where
  counts : c.counts = k.ints
  accesses : k.hit + k.miss = (past.map fun a => weight a.op).sum
  lines : k.miss = k.eviction + validLines c
  length : c.sets.length = 2 ^ s
  tidy : ∀ lines ∈ c.sets, Tidy E lines

theorem counted_init {s : Nat} (hs : s < 31) (E : Nat) :
    ∃ c, Cache_init s E = some c ∧ Counted s E [] c ⟨0, 0, 0⟩ := by
  refine ⟨_, Cache_init_eq hs E, rfl, rfl, ?_, List.length_replicate, ?_⟩
  · have h0 : valids (List.replicate E blank) = 0 := by
      unfold valids
      rw [List.countP_eq_zero]
      intro l hl
      rw [(List.mem_replicate.mp hl).2]
      decide
    simp [validLines, h0]
  · intro lines hl
    rw [(List.mem_replicate.mp hl).2]
    exact tidy_blank E

section Step

variable {s b E : Nat} {past : List Access} {c : Csim} {k : Counts Nat} {a : Access}

theorem Counted.skip (h : Counted s E past c k) (hd : isData a.op = false) :
    Counted s E (past ++ [a]) c k := by
  have hw : weight a.op = 0 := by
    unfold isData at hd
    unfold weight
    simp only [Bool.or_eq_false_iff, beq_eq_false_iff_ne] at hd
    rw [if_neg hd.1.2, if_neg (by simp [hd.1.1, hd.2])]
  refine ⟨h.counts, ?_, h.lines, h.length, h.tidy⟩
  rw [List.map_append, List.sum_append, List.map_singleton, List.sum_singleton, hw]
  exact h.accesses

/-- A turn of the loop with the lines of a set. -/
theorem Counted.serve (hE : 1 ≤ E) (h : Counted s E past c k) (hd : isData a.op = true)
    (t now : Int) {i : Nat} {lines : List Line} (hl : c.sets[i]? = some lines) :
    Counted s E (past ++ [a]) (c.serve a.op t now i lines)
      (k.add a.op (find_line t lines).isSome
        ((find_line t lines).isNone && (find_store lines).2)) := by
  obtain ⟨htidy, hval⟩ := stored_tidy hE (h.tidy lines (List.mem_of_getElem? hl)) t now
  have hw : weight a.op = 1 + if a.op = 'M' then 1 else 0 := by
    unfold isData at hd
    unfold weight
    simp only [Bool.or_eq_true, beq_iff_eq] at hd
    split
    · rfl
    · rw [if_pos (by tauto)]
  have hsum : validLines (c.serve a.op t now i lines) + valids lines =
      validLines c + valids (stored t now lines) := by
    have hget : (c.sets.map valids)[i]? = some (valids lines) := by
      rw [List.getElem?_map, hl]
      rfl
    rw [validLines, validLines, serve_sets, List.map_set]
    exact sum_set hget _
  refine ⟨serve_counts h.counts a.op t now i lines, ?_, ?_, ?_, ?_⟩
  · have hacc := h.accesses
    rw [List.map_append, List.sum_append, List.map_singleton, List.sum_singleton, hw, ← hacc]
    simp only [Counts.add]
    cases find_line t lines <;> simp <;> omega
  · have hlines := h.lines
    rw [hval] at hsum
    simp only [Counts.add]
    cases hf : find_line t lines <;> cases he : (find_store lines).2 <;>
      simp [hf, he] at hsum ⊢ <;> omega
  · rw [serve_sets, List.length_set, h.length]
  · intro x hx
    rw [serve_sets] at hx
    rcases List.mem_or_eq_of_mem_set hx with hx | rfl
    · exact h.tidy x hx
    · exact htidy

theorem Counted.access (hE : 1 ≤ E) (hg : ShiftsDefined s b) (clock : Nat → Int)
    (h : Counted s E past c k) (a : Access) : ∃ c' k',
      deal_with_access s b clock c a = some c' ∧ Counted s E (past ++ [a]) c' k' := by
  cases hd : isData a.op with
  | false => exact ⟨c, k, access_skips hd, h.skip hd⟩
  | true =>
    have hlt : setOf s b a.addr < c.sets.length := by
      rw [h.length]
      exact setOf_lt s b a.addr
    have hl := List.getElem?_eq_getElem hlt
    exact ⟨_, _, access_eq hg clock hd hl, h.serve hE hd _ _ hl⟩

end Step

/-- Every record of the trace is counted. -/
theorem run_counted {s b E : Nat} (hE : 1 ≤ E) (hg : ShiftsDefined s b) (clock : Nat → Int)
    (trace : List Access) : ∃ c k, deal_with_file s b E clock trace = some c ∧
      Counted s E trace c k := by
  induction trace using List.reverseRecOn with
  | nil =>
    obtain ⟨c, hc, h⟩ := counted_init hg.set_num E
    refine ⟨c, _, ?_, h⟩
    rw [deal_with_file, hc]
    rfl
  | append_singleton past a ih =>
    obtain ⟨c, k, hc, h⟩ := ih
    rw [run_snoc, hc]
    exact h.access hE hg clock a

/-! ## The law -/

/-- The accesses of a trace. -/
def accessCount (trace : List Access) : Nat :=
  trace.countP (·.op == 'L') + trace.countP (·.op == 'S') + 2 * trace.countP (·.op == 'M')

/-- The `int`s of the three counters add up to the accesses, and the misses without an eviction
are the valid lines. -/
structure AddUp (trace : List Access) (c : Csim) : Prop where
  accesses : c.counts.hit.toInt + c.counts.miss.toInt = accessCount trace
  lines : c.counts.miss.toInt - c.counts.eviction.toInt = validLines c

/-- The same up to multiples of 2^32, where the sums of `int`s wrap. -/
structure AddUpWrapped (trace : List Access) (c : Csim) : Prop where
  accesses : c.counts.hit + c.counts.miss = BitVec.ofNat 32 (accessCount trace)
  lines : c.counts.miss - c.counts.eviction = BitVec.ofNat 32 (validLines c)

/-- After any trace the counters add up as `int`s, and as numbers while the accesses are fewer
than 2^31; and the valid lines of a set are in front, each with a tag of its own. -/
theorem the_counters_tell_what_the_cache_holds {s b E : Nat} (hg : ShiftsDefined s b)
    (hE : 1 ≤ E) (clock : Nat → Int) (trace : List Access) :
    ∃ c, deal_with_file s b E clock trace = some c ∧ AddUpWrapped trace c ∧
      (accessCount trace < 2 ^ 31 → AddUp trace c) ∧
      ∀ lines ∈ c.sets, ∃ vs rest, lines = vs ++ rest ∧ (∀ l ∈ vs, l.valid = true) ∧
        (∀ l ∈ rest, l.valid = false) ∧ (vs.map Line.tag).Nodup := by
  obtain ⟨c, k, hc, h⟩ := run_counted hE hg clock trace
  have hsum : k.hit + k.miss = accessCount trace := h.accesses.trans (sum_weight trace)
  have hlines := h.lines
  have hcounts := h.counts
  refine ⟨c, hc, ⟨?_, ?_⟩, ?_, ?_⟩
  · rw [hcounts, ← hsum]
    exact (BitVec.ofNat_add k.hit k.miss).symm
  · have hmiss : BitVec.ofNat 32 k.miss =
        BitVec.ofNat 32 (validLines c) + BitVec.ofNat 32 k.eviction := by
      rw [← BitVec.ofNat_add, hlines, Nat.add_comm]
    rw [hcounts]
    show BitVec.ofNat 32 k.miss - BitVec.ofNat 32 k.eviction = _
    rw [hmiss, BitVec.add_sub_cancel]
  · intro hlt
    have hint : ∀ n, n < 2 ^ 31 → (BitVec.ofNat 32 n).toInt = n :=
      fun n hn => (toInt_eq_iff _ n).mpr ⟨rfl, hn⟩
    constructor
    · rw [hcounts]
      show (BitVec.ofNat 32 k.hit).toInt + (BitVec.ofNat 32 k.miss).toInt = _
      rw [hint _ (by omega), hint _ (by omega)]
      omega
    · rw [hcounts]
      show (BitVec.ofNat 32 k.miss).toInt - (BitVec.ofNat 32 k.eviction).toInt = _
      rw [hint _ (by omega), hint _ (by omega)]
      omega
  · intro lines hl
    obtain ⟨vs, rest, ht⟩ := h.tidy lines hl
    exact ⟨vs, rest, ht.shape, ht.valid, ht.free, ht.nodup⟩

/-- Two loads, a store and a modify of four blocks, which come to two sets of one line each. -/
def fourBlocks : List Access := [⟨'L', 0, 1⟩, ⟨'S', 6, 2⟩, ⟨'M', 8, 4⟩, ⟨'L', 2, 1⟩]

theorem the_counters_of_four_blocks :
    ∃ c, deal_with_file 1 1 1 (fun _ => 0) fourBlocks = some c ∧ AddUpWrapped fourBlocks c ∧
      (accessCount fourBlocks < 2 ^ 31 → AddUp fourBlocks c) ∧
      ∀ lines ∈ c.sets, ∃ vs rest, lines = vs ++ rest ∧ (∀ l ∈ vs, l.valid = true) ∧
        (∀ l ∈ rest, l.valid = false) ∧ (vs.map Line.tag).Nodup :=
  the_counters_tell_what_the_cache_holds ⟨by decide, by decide, by decide⟩ (by decide)
    (fun _ => 0) fourBlocks

/-- No two `int`s add up to 2^32 accesses. -/
theorem not_addUp {trace : List Access} (h : 2 ^ 32 ≤ accessCount trace) (c : Csim) :
    ¬ AddUp trace c := by
  rintro ⟨hsum, -⟩
  have hhit := @BitVec.toInt_lt 32 c.counts.hit
  have hmiss := @BitVec.toInt_lt 32 c.counts.miss
  omega

theorem accessCount_loads (n : Nat) (x : Word) :
    accessCount (List.replicate n ⟨'L', x, 1⟩) = n := by
  have hS : ('L' == 'S') = false := by decide
  have hM : ('L' == 'M') = false := by decide
  simp [accessCount, List.countP_replicate, hS, hM]

/-- With more sets, or with larger blocks, the first load shifts too far. -/
theorem the_counters_overflow : (∃ c,
    deal_with_file 1 1 1 (fun _ => 0) (List.replicate (2 ^ 32) ⟨'L', 0, 1⟩) = some c ∧
      ¬ AddUp (List.replicate (2 ^ 32) ⟨'L', 0, 1⟩) c) ∧
    deal_with_file 31 1 1 (fun _ => 0) [⟨'L', 0, 1⟩] = none ∧
    deal_with_file 1 63 1 (fun _ => 0) [⟨'L', 0, 1⟩] = none := by
  refine ⟨?_, rfl, rfl⟩
  have hlong := accessCount_loads (2 ^ 32) 0
  generalize List.replicate (2 ^ 32) (⟨'L', 0, 1⟩ : Access) = trace at hlong ⊢
  obtain ⟨c, -, hc, -⟩ := run_counted (s := 1) (b := 1) (E := 1) (by decide)
    ⟨by decide, by decide, by decide⟩ (fun _ => 0) trace
  exact ⟨c, hc, not_addUp (Nat.le_of_eq hlong.symm) c⟩

end ics_labs.csim
