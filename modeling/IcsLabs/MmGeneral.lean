-- The allocator outside its trace modes: one call on a well-formed heap with `just` at
-- a block. The heap stays tiled and coalesced, and a moved block keeps its bytes.
import IcsLabs.MmRealloc

open ics_labs.byte_words ics_labs.boundary_tags

namespace ics_labs.mm

/-! ## The walk of mm_check -/

/-- What `NEXT_BLKP` reaches from `heap_listp`, the epilogue included. -/
inductive Walk (h : Heap) : Nat → Prop
  | start : Walk h h.heap_listp
  | next {bp n q : Nat} : Walk h bp → GET_SIZE h (HDRP bp) = some n → 0 < n →
      NEXT_BLKP h bp = some q → Walk h q

/-- `bp` is the payload address of a block that the walk reaches. -/
def AtBlock (h : Heap) (bp : Nat) : Prop :=
  Walk h bp ∧ ∃ n, GET_SIZE h (HDRP bp) = some n ∧ 0 < n

theorem walk_iff {h : Heap} {bs : List Block} (hw : Tiled h bs) {bp : Nat} :
    Walk h bp ↔ ∃ l r, bs = l ++ r ∧ bp = h.behind l := by
  constructor
  · intro hb
    induction hb with
    | start => exact ⟨[], bs, rfl, hw.listp_behind⟩
    | next _ hsize hpos hnext ih =>
      obtain ⟨l, r, rfl, rfl⟩ := ih
      have hh := hw.next_header
      have hs : GET_SIZE h (HDRP (h.behind l)) = some (r.headD epilogue).size := hh.size
      rw [hs, Option.some.injEq] at hsize
      cases r with
      | nil =>
        rw [← hsize] at hpos
        exact absurd hpos (by decide)
      | cons b r =>
        have hn : NEXT_BLKP h (h.behind l) = some (h.behind (l ++ [b])) := by
          rw [behind_snoc]
          exact NEXT_BLKP_at hw.header
        rw [hn, Option.some.injEq] at hnext
        exact ⟨l ++ [b], r, by simp, hnext.symm⟩
  · rintro ⟨l, r, rfl, rfl⟩
    induction l using List.reverseRecOn generalizing r with
    | nil =>
      rw [← hw.listp_behind]
      exact Walk.start
    | append_singleton l b ih =>
      rw [List.append_assoc, List.singleton_append] at hw
      have hb := hw.header
      have h8 := hw.bounds.1
      refine Walk.next (ih (b :: r) hw) hb.size (by omega) ?_
      rw [behind_snoc]
      exact NEXT_BLKP_at hb

theorem atBlock_iff {h : Heap} {bs : List Block} (hw : Tiled h bs) {bp : Nat} :
    AtBlock h bp ↔ ∃ b, BlockAt h bs bp b := by
  constructor
  · rintro ⟨hb, n, hn, hpos⟩
    obtain ⟨l, r, rfl, rfl⟩ := (walk_iff hw).mp hb
    cases r with
    | nil =>
      have hh := hw.next_header
      have hs : GET_SIZE h (HDRP (h.behind l)) = some 0 := hh.size
      rw [hs, Option.some.injEq] at hn
      omega
    | cons b r => exact ⟨b, l, r, rfl, rfl⟩
  · rintro ⟨b, l, r, rfl, rfl⟩
    have h8 := hw.bounds.1
    exact ⟨(walk_iff hw).mpr ⟨l, b :: r, rfl, rfl⟩, b.size, hw.header.size, by omega⟩

/-- The loop of `mm_check` over the blocks `r` behind `l`, where `just` is at one of them
or was seen before. -/
theorem check_blocks_spec {h : Heap} {l r : List Block} (hw : WellFormed h (l ++ r)) {n a : Nat}
    {seen : Bool} (hn : r.length < n) (ha : a = 0 → ∀ b ∈ r.head?, b.used = true)
    (hseen : seen = true ∨ ∃ l' b r', r = l' ++ b :: r' ∧ h.just = h.behind (l ++ l')) :
    check_blocks h n (h.behind l) a (total l) seen = some (.ok ()) := by
  induction n generalizing l r a seen with
  | zero => omega
  | succ n ih =>
    have hh : GET_SIZE h (HDRP (h.behind l)) = some (r.headD epilogue).size :=
      hw.toTiled.next_header.size
    unfold check_blocks
    rw [hh]
    cases r with
    | nil =>
      have hbrk := hw.brk
      have hlt := hw.toTiled.total_lt
      rw [List.append_nil] at hbrk hlt
      unfold MAX_HEAP at hlt
      have hs : seen = true := by
        rcases hseen with hs | ⟨l', b, r', hr, -⟩
        · exact hs
        · simp at hr
      have htot : add64 (total l) DSIZE = h.mem_brk - h.mem_start_brk := by
        unfold add64 DSIZE
        unfold Heap.base at hbrk
        omega
      show (if seen = false then some (Except.error Complaint.pointer_is_invalid) else
        if add64 (total l) DSIZE ≠ h.mem_brk - h.mem_start_brk then _ else _) = _
      rw [if_neg (by simp [hs]), if_neg (by simpa using htot)]
      rfl
    | cons b r =>
      have hb := hw.toTiled.header
      have hf := hw.toTiled.footer
      obtain ⟨h8, -, -, -, hlt⟩ := hw.toTiled.bounds
      unfold MAX_HEAP at hlt
      have hsz : (List.headD (b :: r) epilogue).size > 0 := Nat.lt_of_lt_of_le (by decide) h8
      have hbe : h.behind l = h.base + total l + 4 := rfl
      have hnext : NEXT_BLKP h (h.behind l) = some (h.behind (l ++ [b])) := by
        rw [behind_snoc]
        exact NEXT_BLKP_at hb
      show (if (List.headD (b :: r) epilogue).size > 0 then (FTRP h (h.behind l)).bind fun f =>
        (some b.size).bind fun size => (GET_SIZE h f).bind fun v => if size ≠ v then _ else
        (GET_ALLOC h (h.base + total l)).bind fun t => (GET_ALLOC h f).bind fun w =>
        if t ≠ w then _ else if t = 0 ∧ a = 0 then _ else (NEXT_BLKP h (h.behind l)).bind fun q =>
        check_blocks h n q t (add64 (total l) size) (seen || h.behind l == h.just) else _) = _
      rw [if_pos hsz, hbe, FTRP_at hb h8, ← hbe, Option.bind_some, Option.bind_some, hf.size,
        Option.bind_some, if_neg (by simp), hb.alloc, Option.bind_some, hf.alloc, Option.bind_some,
        if_neg (by simp)]
      have hfree : ¬ (b.used.toNat = 0 ∧ a = 0) := by
        rintro ⟨hb0, ha0⟩
        have := ha ha0 b (by simp)
        rw [this] at hb0
        cases hb0
      have htot : add64 (total l) b.size = total (l ++ [b]) := by
        rw [add64_eq (by omega)]
        simp
      rw [if_neg hfree, hnext, Option.bind_some, htot]
      have hw' : WellFormed h ((l ++ [b]) ++ r) := by
        rw [List.append_assoc]
        exact hw
      have hlen : r.length < n := by
        simp only [List.length_cons] at hn
        omega
      refine ih hw' hlen ?_ ?_
      · intro hb0
        exact hw.spaced.used_after_free (by simpa using hb0)
      · rcases hseen with hs | ⟨l', d, r', hr, hj⟩
        · left
          simp [hs]
        · cases l' with
          | nil =>
            left
            rw [List.append_nil] at hj
            simp [hj]
          | cons e l' =>
            right
            simp only [List.cons_append, List.cons.injEq] at hr
            obtain ⟨rfl, hr⟩ := hr
            exact ⟨l', d, r', hr, by rw [hj, List.append_assoc, List.singleton_append]⟩

/-- `mm_check` has nothing to complain of in a well-formed heap with `just` at a block. -/
theorem mm_check_accepts {h : Heap} {bs : List Block} (hw : WellFormed h bs) (hj : JustAt h bs) :
    mm_check h = some (.ok ()) := by
  have hlp := hw.listp
  obtain ⟨r, rfl⟩ : ∃ r, bs = prologue :: r := by
    have hf := hw.first
    cases bs with
    | nil => simp at hf
    | cons b r => exact ⟨r, by simpa using hf⟩
  have hp : HasTag h (h.base + total []) prologue := Tiled.header (l := []) hw.toTiled
  have hlen := hw.toTiled.length_lt
  have hlt := hw.start_lt
  have hsub : sub h.heap_listp h.mem_start_brk = DSIZE := by
    unfold MAX_HEAP at hlt
    rw [hlp, sub_eq (by omega) (by omega)]
    unfold DSIZE
    omega
  have hsize : GET_SIZE h (HDRP h.heap_listp) = some 8 := by
    rw [hw.toTiled.listp_behind]
    exact hp.size
  have halloc : GET_ALLOC h (HDRP h.heap_listp) = some 1 := by
    rw [hw.toTiled.listp_behind]
    exact hp.alloc
  unfold mm_check
  rw [if_neg (by simp [hsub]), hsize, halloc]
  show check_blocks h (turns h) h.heap_listp 1 (total []) false = _
  rw [hw.toTiled.listp_behind]
  obtain ⟨b, l', r', he, hjust⟩ := hj
  exact check_blocks_spec (l := []) hw hlen (by simp) (Or.inr ⟨l', b, r', he, hjust⟩)

/-! ## The requests -/

/-- A request of the caller. -/
inductive Call where
  | malloc (size : Nat)
  | free (ptr : Nat)
  | realloc (ptr size : Nat)
deriving DecidableEq, Repr

/-- The result of a request: the pointer, where there is one. -/
def perform (h : Heap) : Call → Option (Nat × Heap)
  | .malloc size => mm_malloc h size
  | .free ptr => (mm_free h ptr).map fun h => (0, h)
  | .realloc ptr size => mm_realloc h ptr size

/-- The block that a request names. -/
def Call.names : Call → Nat → Prop
  | .malloc _, _ => False
  | .free ptr, p => p = ptr
  | .realloc ptr _, p => p = ptr

/-- The size that a request asks for. -/
def Call.size : Call → Nat
  | .malloc size => size
  | .free _ => 0
  | .realloc _ size => size

/-- `mm_realloc` grows the block in place, and `just` is inside the stretch that it takes
up but not at the block that is left over. -/
def swallows (h : Heap) (ptr size : Nat) : Bool :=
  (GET_SIZE h (HDRP ptr)).any fun old => decide (old < roundUp size) &&
    (inPlace h ptr old (roundUp size)).any fun v =>
      decide (v.1 < h.just) && decide (h.just < v.1 + v.2) && decide (h.just ≠ v.1 + roundUp size)

section General

variable {h : Heap} {bs : List Block} {p old size : Nat}

theorem later_malloc_general (hT : h.TR = 0) (asize : Nat) :
    later_malloc h size asize = norm_malloc h asize := by
  unfold later_malloc
  rw [if_neg (by omega), if_neg (by omega)]

theorem mm_malloc_general (hT : h.TR = 0) (hf : h.fmalloc = false) (hs : size ≠ 0) :
    mm_malloc h size = norm_malloc h (roundUp size) := by
  unfold mm_malloc
  rw [if_neg hs, if_neg (by simp [hf]), later_malloc_general hT]

/-- A size that is rounded up without a wrap, and what it lacks comes whole to `mem_sbrk`. -/
structure Whole (h : Heap) (bs : List Block) (size : Nat) : Prop where
  lt : size < 2 ^ 64 - 15
  uncut : (∃ b ∈ bs, Fits (roundUp size) b) ∨ ¬ CutShort h (lacks bs (roundUp size))

theorem whole_of_small (hw : WellFormed h bs) (hlt : size < 2 ^ 31 - 16) : Whole h bs size := by
  have hr := (roundUp_spec (n := size) (by omega)).2
  exact ⟨by omega, not_cut_of_small hw (roundUp_dvd size) (by omega)⟩

/-- `mm_malloc` in general mode: NULL and no change but in `end`, or a new block. -/
theorem mm_malloc_spec (hw : WellFormed h bs) (hj : JustAt h bs) (hT : h.TR = 0)
    (hf : h.fmalloc = false) (hs : size ≠ 0) (hwh : Whole h bs size) :
    (∃ e, mm_malloc h size = some (0, { h with end_ := e })) ∨
    ∃ q h' bs', mm_malloc h size = some (q, h') ∧ q ≠ 0 ∧
      Granted h h' bs bs' (fun _ => False) q (roundUp size) ∧ JustAt h' bs' := by
  obtain ⟨hlt, hok⟩ := hwh
  obtain ⟨h1, h2⟩ := roundUp_spec hlt
  rw [mm_malloc_general hT hf hs]
  exact norm_malloc_any hw hj (by omega) (roundUp_dvd size) (by omega) hok

theorem norm_realloc_null {e : Heap} (hm : mm_malloc h size = some (0, e)) :
    norm_realloc h p size old = some (0, e) := by
  unfold norm_realloc
  rw [hm]
  rfl

theorem mm_realloc_zero (hp : Live h bs p old) :
    mm_realloc h p 0 = (mm_free h p).bind fun h => some (0, h) := by
  obtain ⟨l, -, -, -, rfl⟩ := hp
  unfold mm_realloc
  rw [if_neg (behind_pos h l), if_pos rfl]
  rfl

theorem mm_realloc_eq (hw : WellFormed h bs) (hp : Live h bs p old) (hs : size ≠ 0) :
    mm_realloc h p size = if roundUp size = old then some (p, h)
      else if roundUp size < old then shrink h p old (roundUp size)
      else grow h p size old (roundUp size) := by
  obtain ⟨l, r, rfl, -, rfl⟩ := hp
  have hsize : GET_SIZE h (HDRP (h.behind l)) = some old := hw.toTiled.header.size
  unfold mm_realloc
  rw [if_neg (behind_pos h l), if_neg hs, hsize]
  rfl

/-- What `mm_realloc` does for a live block in general mode. -/
theorem mm_realloc_spec (hw : WellFormed h bs) (hj : JustAt h bs) (hT : h.TR = 0)
    (hf : h.fmalloc = false) (hp : Live h bs p old) (hs : size ≠ 0) (hwh : Whole h bs size) :
    (∃ e, mm_realloc h p size = some (0, { h with end_ := e })) ∨
    ∃ q h' bs', mm_realloc h p size = some (q, h') ∧ q ≠ 0 ∧
      Granted h h' bs bs' (fun g => g = p) q (roundUp size) ∧
      Copied h.contents h'.contents p q (min (old - 8) size) ∧
      (swallows h p size = false → JustAt h' bs') := by
  have hlt := hwh.lt
  obtain ⟨h1, h2⟩ := roundUp_spec hlt
  have hd := roundUp_dvd size
  obtain ⟨b, hjb⟩ := hj
  have hj : JustAt h bs := ⟨b, hjb⟩
  have hp0 : p ≠ 0 := by
    obtain ⟨l, -, -, -, rfl⟩ := hp
    exact behind_pos h l
  have hsize : GET_SIZE h (HDRP p) = some old := by
    obtain ⟨l, r, rfl, -, rfl⟩ := hp
    exact hw.toTiled.header.size
  rw [mm_realloc_eq hw hp hs]
  generalize hasz : roundUp size = asize at h1 h2 hd ⊢
  by_cases heq : asize = old
  · right
    subst heq
    rw [if_pos rfl]
    refine ⟨p, h, bs, rfl, hp0, ⟨Served.refl hw _, ⟨asize, Nat.le_refl _, hp.blockAt⟩,
      fun _ _ _ => rfl⟩, fun _ _ => rfl, fun _ => hj⟩
  · rw [if_neg heq]
    by_cases hless : asize < old
    · right
      rw [if_pos hless]
      obtain ⟨h', bs', hsh, hg, hcp, hj', -⟩ := shrink_spec hw hp (by omega) hd hless
      exact ⟨p, h', bs', hsh, hp0, hg, fun i hi => hcp i (by omega), fun _ => hj' hj⟩
    · rw [if_neg hless]
      rcases grow_spec size hw hp (by omega) (by omega) hd (by omega) (by omega) with
        ⟨q, t, h', bs', hin, hgr, hq, hg⟩ | ⟨-, hgr⟩
      · right
        refine ⟨q, h', bs', hgr, hq, hg.granted, fun i hi => hg.copied i (by omega), ?_⟩
        intro hsw
        apply hg.just hj
        by_contra hout
        push Not at hout
        unfold swallows at hsw
        rw [hsize, hasz] at hsw
        simp only [Option.any_some, hin] at hsw
        have hold : old < asize := by omega
        simp [hold, hout.1, hout.2.1, hout.2.2] at hsw
      · rw [hgr]
        rcases mm_malloc_spec hw hj hT hf hs hwh with ⟨e, hm⟩ | ⟨q, h₁, bs₁, hm, hq, hg, hj₁⟩
        · left
          exact ⟨e, norm_realloc_null hm⟩
        · right
          rw [hasz] at hg
          obtain ⟨h', bs', hnr, -, hg', hcp, hj', -⟩ :=
            norm_realloc_spec hw hp hm hq hg (by
              have := hg.block_at
              obtain ⟨l, r, rfl, -, -⟩ := hp
              have hb := hw.toTiled.bounds
              obtain ⟨-, h8, -⟩ := hb
              simp only at h8
              omega)
          exact ⟨q, h', bs', hnr, hq, hg', fun i hi => hcp i (by omega), fun _ => hj' hj₁⟩

end General

/-- The block that a request gave out is not the prologue. -/
theorem Granted.live_at {h h' : Heap} {bs bs' : List Block} {gone : Nat → Prop} {q asize : Nat}
    (hg : Granted h h' bs bs' gone q asize) (hw : WellFormed h bs) (hgone : ¬ gone (h.behind [])) :
    ∃ k, asize ≤ k ∧ Live h' bs' q k := by
  obtain ⟨k, hk, hb⟩ := hg.block
  refine ⟨k, hk, (live_iff hg.wf.toTiled).mpr ⟨hb, ?_⟩⟩
  rintro rfl
  have hbase : h'.behind [] = h.behind [] := by
    unfold Heap.behind Heap.base
    rw [hg.keeps.start]
  obtain ⟨r, rfl⟩ : ∃ r, bs = prologue :: r := by
    have hf := hw.first
    cases bs with
    | nil => simp at hf
    | cons b r => exact ⟨r, by simpa using hf⟩
  apply hgone
  rw [← hbase]
  exact hg.fresh prologue ⟨[], r, rfl, hbase⟩ rfl

/-! ## The start -/

/-- The heap as `mem_reset_brk` leaves it: it is empty, and its memory is aligned. -/
structure Fresh (h : Heap) : Prop where
  empty : h.mem_brk = h.mem_start_brk
  aligned : 8 ∣ h.mem_start_brk
  start_pos : 0 < h.mem_start_brk
  start_lt : h.mem_start_brk + MAX_HEAP < 2 ^ 64

/-- The heap after the first four words of `mm_init`. -/
def Heap.opened (h : Heap) : Heap :=
  { h with
    contents := store (store (store (store h.contents h.mem_start_brk 4 0) (h.mem_start_brk + 4) 4 9)
      (h.mem_start_brk + 8) 4 9) (h.mem_start_brk + 12) 4 1
    mem_brk := h.mem_start_brk + 16
    heap_listp := h.mem_start_brk + 8
    just := h.mem_start_brk + 8
    fmalloc := true
    TR := 0
    Q_no := -1 }

theorem opened_wellFormed {h : Heap} (hf : Fresh h) : WellFormed h.opened [prologue] := by
  have hb : h.opened.base = h.mem_start_brk + 4 := rfl
  have hpro : Stands h.opened.contents h.opened.base prologue := by
    refine ⟨Nat.le_refl 8, Nat.dvd_refl 8, ?_, ?_⟩
    · show load (store (store (store (store _ _ 4 0) _ 4 9) _ 4 9) _ 4 1) (h.mem_start_brk + 4) 4 = 9
      rw [load_store_of_disjoint (by omega), load_store_of_disjoint (by omega), load_store_same]
      norm_num
    · show load (store (store (store (store _ _ 4 0) _ 4 9) _ 4 9) _ 4 1) (h.mem_start_brk + 8) 4 = 9
      rw [load_store_of_disjoint (by omega), load_store_same]
      norm_num
  have hroom : 16 ≤ MAX_HEAP := by
    unfold MAX_HEAP
    omega
  refine ⟨⟨hf.aligned, hf.start_pos, hf.start_lt, rfl, rfl, ⟨hpro, trivial⟩, rfl, ?_, ?_⟩,
    List.isChain_singleton _⟩
  · exact load_store_same _ (h.mem_start_brk + 12) 4 1
  · show h.mem_start_brk + 16 ≤ h.mem_start_brk + MAX_HEAP
    omega

/-- The first part of `mm_init`, on an empty heap. -/
theorem mm_init_eq {h : Heap} (hf : Fresh h) : mm_init h = (extend_heap h.opened 1024).bind fun v =>
    some (if v.1 = 0 then -1 else 0, v.2) := by
  obtain ⟨c, start, brk, lp, j, e, f, t, q⟩ := h
  obtain ⟨he, -, -, -⟩ := hf
  simp only at he
  subst he
  have hmax : brk + 16 ≤ brk + MAX_HEAP := by
    unfold MAX_HEAP
    omega
  have hsb : mem_sbrk ⟨c, brk, brk, lp, j, e, true, 0, -1⟩ ((16 : Nat) : Int) =
      (some brk, ⟨c, brk, brk + 16, lp, j, e, true, 0, -1⟩) := sbrk_some hmax
  have hput : ∀ {d : Contents} {q v : Nat}, brk ≤ q → q ≤ brk + 12 →
      PUT ⟨d, brk, brk + 16, lp, j, e, true, 0, -1⟩ q v =
        some ⟨store d q 4 v, brk, brk + 16, lp, j, e, true, 0, -1⟩ := by
    intro d q v h1 h2
    exact PUT_eq ⟨h1, show q + 4 ≤ brk + 16 by omega⟩
  have h9 : PACK DSIZE 1 = 9 := rfl
  have h1 : PACK 0 1 = 1 := rfl
  have hrun : mm_init ⟨c, brk, brk, lp, j, e, f, t, q⟩ =
      first_list (mem_sbrk ⟨c, brk, brk, lp, j, e, true, 0, -1⟩ ((16 : Nat) : Int)) := rfl
  rw [hrun, hsb]
  show (PUT ⟨c, brk, brk + 16, lp, j, e, true, 0, -1⟩ brk 0).bind (fun h =>
    (PUT h (brk + 4) (PACK DSIZE 1)).bind fun h => (PUT h (brk + 8) (PACK DSIZE 1)).bind fun h =>
    (PUT h (brk + 12) (PACK 0 1)).bind fun h => (extend_heap { h with
      heap_listp := brk + 8, just := brk + 8 } 1024).bind fun v =>
    some (if v.1 = 0 then -1 else 0, v.2)) = _
  rw [hput (Nat.le_refl brk) (by omega), Option.bind_some, hput (by omega) (by omega),
    Option.bind_some, hput (by omega) (by omega), Option.bind_some, hput (by omega) (by omega), h9, h1,
    Option.bind_some]
  unfold Heap.opened
  simp only

/-- `mm_init` on an empty heap: one free block of 4096 bytes behind the prologue. -/
theorem mm_init_spec {h : Heap} (hf : Fresh h) :
    ∃ h', mm_init h = some (0, h') ∧ WellFormed h' [prologue, ⟨4096, false⟩] ∧
      JustAt h' [prologue, ⟨4096, false⟩] ∧ h'.fmalloc = true ∧ h'.TR = 0 ∧ h'.Q_no = -1 ∧
      h'.mem_start_brk = h.mem_start_brk := by
  have hw := opened_wellFormed hf
  have hroom : h.opened.mem_brk + 4096 ≤ h.opened.mem_start_brk + MAX_HEAP := by
    show h.mem_start_brk + 16 + 4096 ≤ h.mem_start_brk + MAX_HEAP
    unfold MAX_HEAP
    omega
  have hj : JustAt h.opened [prologue] := ⟨prologue, [], [], rfl, rfl⟩
  rcases extend_heap_spec 1024 hw.toTiled (by omega) (by omega) (by omega) with
    ⟨hno, -⟩ | ⟨l, f, h', ha, hl, hrun, e, ht, hjust⟩
  · omega
  · -- The prologue is in use, so the new block stands alone behind it.
    have hleft := ha.left
    have hlf : l = [prologue] ∧ f = [] := by
      rcases ha.before with ⟨rfl, -⟩ | ⟨x, rfl, hx⟩
      · exact ⟨by simpa using hleft.symm, rfl⟩
      · have hlast := congrArg List.getLast? hleft
        simp only [List.getLast?_singleton, List.getLast?_append_of_ne_nil, ne_eq,
          List.cons_ne_nil, not_false_eq_true, Option.some.injEq] at hlast
        rw [← hlast] at hx
        cases hx
    obtain ⟨rfl, rfl⟩ := hlf
    refine ⟨h', ?_, ⟨ht, ?_⟩, hjust hj, e.fmalloc, e.TR, e.Q_no, e.start⟩
    · rw [mm_init_eq hf, hrun]
      show some ((if h.opened.behind [prologue] = 0 then (-1 : Int) else 0), h') = _
      rw [if_neg (behind_pos _ _)]
    · exact List.isChain_pair.mpr (Or.inl rfl)

/-! ## The laws -/

/-- From a well-formed heap in general mode with `just` at a block, every request ends in a
well-formed heap: the blocks tile it from the prologue to the epilogue at the break, every
header is its footer, and no two neighbours are free. All other used blocks are kept. -/
theorem a_request_keeps_the_heap_well_formed {h : Heap} {bs : List Block} (hw : WellFormed h bs)
    (hT : h.TR = 0) (hf : h.fmalloc = false) (hj : JustAt h bs) (c : Call)
    (hlive : ∀ p, c.names p → ∃ n, Live h bs p n) (hs : c.size < 2 ^ 31 - 16) :
    ∃ q h' bs', perform h c = some (q, h') ∧ WellFormed h' bs' ∧
      ∀ p b, BlockAt h bs p b → b.used = true → ¬ c.names p → BlockAt h' bs' p b := by
  have hsame : ∀ {e : Nat}, WellFormed { h with end_ := e } bs := fun {e} => hw.cursors h.just e
  cases c with
  | malloc size =>
    by_cases h0 : size = 0
    · subst h0
      exact ⟨0, h, bs, rfl, hw, fun _ _ hb _ _ => hb⟩
    · rcases mm_malloc_spec hw hj hT hf h0 (whole_of_small hw hs) with ⟨e, hm⟩ | ⟨q, h', bs', hm, -, hg, -⟩
      · exact ⟨0, _, bs, hm, hsame, fun _ _ hb _ _ => hb⟩
      · exact ⟨q, h', bs', hm, hg.wf, fun p b hb hu _ => hg.keeps.block p b hb hu (by simp)⟩
  | free p =>
    obtain ⟨n, hp⟩ := hlive p rfl
    obtain ⟨h', bs', hm, hs, -⟩ := mm_free_spec hw hp
    refine ⟨0, h', bs', ?_, hs.wf, hs.keeps.block⟩
    show (mm_free h p).map _ = _
    rw [hm]
    rfl
  | realloc p size =>
    obtain ⟨n, hp⟩ := hlive p rfl
    by_cases h0 : size = 0
    · subst h0
      obtain ⟨h', bs', hm, hs, -⟩ := mm_free_spec hw hp
      refine ⟨0, h', bs', ?_, hs.wf, hs.keeps.block⟩
      show mm_realloc h p 0 = _
      rw [mm_realloc_zero hp, hm]
      rfl
    · rcases mm_realloc_spec hw hj hT hf hp h0 (whole_of_small hw hs) with ⟨e, hm⟩ | ⟨q, h', bs', hm, -, hg, -, -⟩
      · exact ⟨0, _, bs, hm, hsame, fun _ _ hb _ _ => hb⟩
      · exact ⟨q, h', bs', hm, hg.wf, hg.keeps.block⟩

/-- A small heap: one used block of 24 bytes at 24. -/
def oneBlock : Heap where
  contents := store (store (store (store (store (fun _ => 0) 12 4 9) 16 4 9) 20 4 25) 40 4 25) 44 4 1
  mem_start_brk := 8
  mem_brk := 48
  heap_listp := 16
  just := 16
  end_ := 0
  fmalloc := false
  TR := 0
  Q_no := 0

theorem oneBlock_wellFormed : WellFormed oneBlock [prologue, ⟨24, true⟩] := by
  have hroom : 40 ≤ MAX_HEAP := by
    unfold MAX_HEAP
    omega
  have hlt : MAX_HEAP + 8 < 2 ^ 64 := by
    unfold MAX_HEAP
    omega
  have h1 : Stands oneBlock.contents 12 prologue :=
    ⟨by decide, by decide, by decide +kernel, by decide +kernel⟩
  have h2 : Stands oneBlock.contents 20 ⟨24, true⟩ :=
    ⟨by decide, by decide, by decide +kernel, by decide +kernel⟩
  refine ⟨⟨by decide, by decide, ?_, rfl, rfl, ⟨h1, h2, trivial⟩, rfl, by decide +kernel, ?_⟩, ?_⟩
  · show 8 + MAX_HEAP < 2 ^ 64
    omega
  · show 48 ≤ 8 + MAX_HEAP
    omega
  · exact List.isChain_pair.mpr (Or.inl rfl)

theorem oneBlock_live : Live oneBlock [prologue, ⟨24, true⟩] 24 24 :=
  ⟨[prologue], [], rfl, by simp, rfl⟩

theorem oneBlock_just : JustAt oneBlock [prologue, ⟨24, true⟩] :=
  ⟨prologue, [], [⟨24, true⟩], rfl, rfl⟩

theorem a_growing_block_keeps_the_heap_well_formed :
    ∃ q h' bs', perform oneBlock (.realloc 24 100) = some (q, h') ∧ WellFormed h' bs' ∧
      ∀ p b, BlockAt oneBlock [prologue, ⟨24, true⟩] p b → b.used = true →
        ¬ (Call.realloc 24 100).names p → BlockAt h' bs' p b := by
  refine a_request_keeps_the_heap_well_formed oneBlock_wellFormed rfl rfl oneBlock_just
    (.realloc 24 100) ?_ (by decide)
  rintro p rfl
  exact ⟨24, oneBlock_live⟩

/-- A block that `mm_realloc` gives back in general mode has room for what was asked, and
its first bytes are those of the old block. All other live blocks keep their bytes. -/
theorem a_reallocated_block_keeps_its_bytes {h h' : Heap} {bs : List Block} {p q old size : Nat}
    (hw : WellFormed h bs) (hT : h.TR = 0) (hf : h.fmalloc = false) (hj : JustAt h bs)
    (hp : Live h bs p old) (hpos : 0 < size) (hlt : size < 2 ^ 31 - 16)
    (hrun : mm_realloc h p size = some (q, h')) (hq : q ≠ 0) :
    ∃ bs' n, WellFormed h' bs' ∧ Live h' bs' q n ∧ size ≤ n - 8 ∧
      (∀ i < min (old - 8) size, h'.contents (q + i) = h.contents (p + i)) ∧
      ∀ g k, Live h bs g k → g ≠ p → Live h' bs' g k ∧
        ∀ i < k - 8, h'.contents (g + i) = h.contents (g + i) := by
  have hsz := (roundUp_spec (n := size) (by omega)).1
  rcases mm_realloc_spec hw hj hT hf hp (by omega) (whole_of_small hw hlt) with
    ⟨e, hm⟩ | ⟨q', h₁, bs', hm, -, hg, hcp, -⟩
  · rw [hm] at hrun
    cases hrun
    exact absurd rfl hq
  · rw [hm] at hrun
    cases hrun
    have hp4 : p ≠ h.behind [] := ((live_iff hw.toTiled).mp hp).2
    obtain ⟨n, hn, hqn⟩ := hg.live_at hw (fun he => hp4 he.symm)
    refine ⟨bs', n, hg.wf, hqn, by omega, hcp, ?_⟩
    intro g k hgk hne
    refine ⟨hg.live hw.toTiled hgk hne, ?_⟩
    intro i hi
    have hg4 : 4 ≤ g := by
      obtain ⟨l, -, -, -, rfl⟩ := hgk
      unfold Heap.behind
      omega
    exact (hg.keeps.bytes g _ hgk.blockAt rfl hne (g + i) (by omega) (by simp only; omega)).symm

theorem a_shrunk_block_keeps_its_bytes :
    ∃ h' bs' n, mm_realloc oneBlock 24 4 = some (24, h') ∧ WellFormed h' bs' ∧
      Live h' bs' 24 n ∧ 4 ≤ n - 8 ∧
      (∀ i < min (24 - 8) 4, h'.contents (24 + i) = oneBlock.contents (24 + i)) ∧
      ∀ g k, Live oneBlock [prologue, ⟨24, true⟩] g k → g ≠ 24 → Live h' bs' g k ∧
        ∀ i < k - 8, h'.contents (g + i) = oneBlock.contents (g + i) := by
  obtain ⟨h', -, hsh, -⟩ := shrink_spec oneBlock_wellFormed oneBlock_live
    (show 8 ≤ 16 by decide) (by decide) (by decide)
  have hrun : mm_realloc oneBlock 24 4 = some (24, h') := by
    rw [mm_realloc_eq oneBlock_wellFormed oneBlock_live (by decide)]
    exact hsh
  obtain ⟨bs', n, h1, h2, h3, h4, h5⟩ := a_reallocated_block_keeps_its_bytes oneBlock_wellFormed rfl
    rfl oneBlock_just oneBlock_live (by decide) (by decide) hrun (by decide)
  exact ⟨h', bs', n, hrun, h1, h2, h3, h4, h5⟩

end ics_labs.mm
