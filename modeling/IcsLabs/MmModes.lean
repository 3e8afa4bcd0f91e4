-- The trace modes of mm.c. The first request chooses one by its size. A later request of
-- the size that the mode expects goes where the mode says, and any other ends the mode.
import IcsLabs.MmFirst

open ics_labs.byte_words ics_labs.boundary_tags

namespace ics_labs.mm

/-! ## A request in a trace mode -/

/-- A trace mode is active, and the first request is over. -/
def InMode (h : Heap) : Prop := h.fmalloc = false ∧ (h.TR = 1 ∨ h.TR = 2 ∨ h.TR = 3)

instance (h : Heap) : Decidable (InMode h) := inferInstanceAs (Decidable (_ ∧ _))

/-- The size that the mode expects of the next request. -/
def expected (h : Heap) : Nat :=
  if h.TR = 1 then QA1
  else if h.count.Q_no ≥ MAXQ h.TR then QFINAL h.TR
  else if h.count.Q_no % 2 = 1 then QODD h.TR
  else QEVEN h.TR

/-- The block that the mode takes for a request of that size, and the heap it takes it
from. -/
def chosen (h : Heap) (asize : Nat) : Option (Nat × Heap) :=
  if h.TR = 1 then (first_fit h asize).map fun bp => (bp, h)
  else if h.count.Q_no ≥ MAXQ h.TR then next_fit h.count asize
  else if h.count.Q_no % 2 = 1 then
    some (scaled (h.heap_listp + OSNEXT h.TR) ((h.count.Q_no - 1).tdiv 2) asize, h.count)
  else some (scaled (h.heap_listp + DSIZE) (h.count.Q_no.tdiv 2 - 1) asize, h.count)

/-- The heap when a request has ended the mode. -/
def Heap.left (h : Heap) : Heap := { if h.TR = 1 then h else h.count with TR := 0 }

section Mode

variable {h : Heap} {size asize : Nat}

/-- A request that is not the first: the mode places a block, or it ends. -/
theorem mm_malloc_mode (hm : InMode h) (hs : size ≠ 0) :
    mm_malloc h size = if size = expected h then
        (chosen h (roundUp size)).bind fun v => lay v.2 v.1 (roundUp size)
      else norm_malloc h.left (roundUp size) := by
  obtain ⟨hf, hT⟩ := hm
  unfold mm_malloc
  rw [if_neg hs, if_neg (by simp [hf])]
  unfold later_malloc expected chosen Heap.left
  by_cases h1 : h.TR = 1
  · rw [if_neg (by omega), if_pos h1]
    simp only [h1, if_true]
    by_cases hq : size = QA1
    · rw [if_neg (by simp [hq]), if_pos hq]
      cases first_fit h (roundUp size) <;> rfl
    · rw [if_pos hq, if_neg hq]
  · rw [if_pos (by omega)]
    simp only [h1, if_false]
    unfold quick_malloc
    simp only
    have hTR : h.count.TR = h.TR := rfl
    by_cases hq : h.count.Q_no ≥ MAXQ h.TR
    · rw [if_pos (by rw [hTR]; exact hq), if_pos hq, if_pos hq, hTR]
      by_cases hz : size = QFINAL h.TR
      · rw [if_neg (by simpa using hz), if_pos hz]
        rfl
      · rw [if_pos hz, if_neg hz]
    · rw [if_neg (by rw [hTR]; exact hq), if_neg hq, if_neg hq, hTR]
      by_cases ho : h.count.Q_no % 2 = 1
      · rw [if_pos ho, if_pos ho, if_pos ho]
        by_cases hz : size = QODD h.TR
        · rw [if_neg (by simpa using hz), if_pos hz]
          rfl
        · rw [if_pos hz, if_neg hz]
      · rw [if_neg ho, if_neg ho, if_neg ho]
        by_cases hz : size = QEVEN h.TR
        · rw [if_neg (by simpa using hz), if_pos hz]
          rfl
        · rw [if_pos hz, if_neg hz]

end Mode

/-! ## The two rows of a mode -/

/-- Where the two rows of mode `x` go on behind request `m`, and the bytes that they still
take. A row that is complete is left out. -/
def rowsBehind (x listp m : Nat) : List (Nat × Nat) :=
  [(listp + DSIZE + m / 2 * roundUp (QEVEN x),
      ((MAXQ x).toNat / 2 - 1 - m / 2) * roundUp (QEVEN x)),
    (listp + OSNEXT x + (m + 1) / 2 * roundUp (QODD x),
      ((MAXQ x).toNat / 2 - (m + 1) / 2) * roundUp (QODD x))].filter fun e => decide (0 < e.2)

def Heap.rows (h : Heap) : List (Nat × Nat) :=
  if h.TR = 2 ∨ h.TR = 3 then rowsBehind h.TR h.heap_listp h.Q_no.toNat else []

/-- Each row goes on in a free block with room for the rest of it. -/
structure Rows (h : Heap) (bs : List Block) : Prop where
  counts : h.TR = 2 ∨ h.TR = 3 → 0 ≤ h.Q_no ∧ h.Q_no < 2 ^ 31
  free : ∀ e ∈ h.rows, FreeAt h bs e.1 e.2

section Rows

variable {h h' : Heap} {bs bs' : List Block} {s k asize : Nat}

theorem rows_none (hT : ¬ (h.TR = 2 ∨ h.TR = 3)) : Rows h bs := by
  refine ⟨fun h1 => absurd h1 hT, ?_⟩
  unfold Heap.rows
  rw [if_neg hT]
  simp

/-- A request that keeps the counters has to keep the free blocks of the rows. -/
theorem Rows.kept (hr : Rows h bs) (hT : h'.TR = h.TR) (hQ : h'.Q_no = h.Q_no)
    (hl : h'.heap_listp = h.heap_listp)
    (hfree : ∀ e ∈ h.rows, FreeAt h bs e.1 e.2 → FreeAt h' bs' e.1 e.2) : Rows h' bs' := by
  have hrows : h'.rows = h.rows := by
    unfold Heap.rows
    rw [hT, hQ, hl]
  refine ⟨?_, ?_⟩
  · rw [hT, hQ]
    exact hr.counts
  · intro e he
    rw [hrows] at he
    exact hfree e he (hr.free e he)

/-- `place` at a free block with room. -/
theorem place_free (hw : WellFormed h bs) (hs : FreeAt h bs s k) (h8 : 8 ≤ asize)
    (hd : 8 ∣ asize) (hle : asize ≤ k) :
    ∃ h' bs', place h s asize = some h' ∧ Granted h h' bs bs' (fun _ => False) s asize ∧ s ≠ 0 ∧
      (asize < k → FreeAt h' bs' (s + asize) (k - asize)) ∧
      ∀ q j, FreeAt h bs q j → q ≠ s → FreeAt h' bs' q j := by
  obtain ⟨n, hn, l, r, rfl, rfl⟩ := hs
  obtain ⟨h', bs', hrun, hg, -, -, hrest, hother⟩ := place_spec hw h8 hd (Nat.le_trans hle hn)
  refine ⟨h', bs', hrun, hg, behind_pos h l, ?_, hother⟩
  intro hlt
  obtain ⟨j, hj, hb⟩ := hrest (by omega)
  exact ⟨j, by omega, hb⟩

end Rows

theorem mem_rowsBehind {x p m a n : Nat} : (a, n) ∈ rowsBehind x p m ↔ 0 < n ∧
    ((a = p + DSIZE + m / 2 * roundUp (QEVEN x) ∧
        n = ((MAXQ x).toNat / 2 - 1 - m / 2) * roundUp (QEVEN x)) ∨
      (a = p + OSNEXT x + (m + 1) / 2 * roundUp (QODD x) ∧
        n = ((MAXQ x).toNat / 2 - (m + 1) / 2) * roundUp (QODD x))) := by
  unfold rowsBehind
  simp only [List.mem_filter, List.mem_cons, List.not_mem_nil, or_false, decide_eq_true_eq,
    Prod.mk.injEq]
  rw [and_comm]

/-- The numbers of the modes 2 and 3. -/
theorem mode_two : roundUp (QEVEN 2) = 24 ∧ roundUp (QODD 2) = 120 ∧ MAXQ 2 = 8000 ∧
    OSNEXT 2 = 96008 ∧ OSINIT 2 = 95984 := ⟨rfl, rfl, rfl, rfl, rfl⟩

theorem mode_three : roundUp (QEVEN 3) = 72 ∧ roundUp (QODD 3) = 456 ∧ MAXQ 3 = 4000 ∧
    OSNEXT 3 = 144008 ∧ OSINIT 3 = 143936 := ⟨rfl, rfl, rfl, rfl, rfl⟩

/-- Behind request `m`, a row goes on at `s` and takes `k` bytes. The next request takes
`asize` of them, and leaves the other row alone. -/
structure Turn (x p m s asize k : Nat) : Prop where
  row : (s, k) ∈ rowsBehind x p m
  le : asize ≤ k
  next : ∀ a n, (a, n) ∈ rowsBehind x p (m + 1) → ((a, n) ∈ rowsBehind x p m ∧ a ≠ s) ∨
    (asize < k ∧ a = s + asize ∧ n = k - asize)

/-- An odd request takes the end of the right row. -/
theorem turn_odd {x p m : Nat} (hx : x = 2 ∨ x = 3) (hm : ((m + 1 : Nat) : Int) < MAXQ x)
    (ho : (m + 1) % 2 = 1) :
    ∃ k, Turn x p m (p + OSNEXT x + m / 2 * roundUp (QODD x)) (roundUp (QODD x)) k := by
  rcases hx with rfl | rfl
  · simp only [mode_two] at hm ⊢
    refine ⟨(4000 - (m + 1) / 2) * 120, ?_, by omega, fun a n => ?_⟩
    · rw [mem_rowsBehind]
      simp only [mode_two]
      omega
    · rw [mem_rowsBehind, mem_rowsBehind]
      simp only [mode_two, DSIZE]
      rintro ⟨hn, ⟨ha, he⟩ | ⟨ha, he⟩⟩
      · left
        omega
      · right
        omega
  · simp only [mode_three] at hm ⊢
    refine ⟨(2000 - (m + 1) / 2) * 456, ?_, by omega, fun a n => ?_⟩
    · rw [mem_rowsBehind]
      simp only [mode_three]
      omega
    · rw [mem_rowsBehind, mem_rowsBehind]
      simp only [mode_three, DSIZE]
      rintro ⟨hn, ⟨ha, he⟩ | ⟨ha, he⟩⟩
      · left
        omega
      · right
        omega

/-- An even one takes the end of the left row. -/
theorem turn_even {x p m : Nat} (hx : x = 2 ∨ x = 3) (hm : ((m + 1 : Nat) : Int) < MAXQ x)
    (ho : ¬ (m + 1) % 2 = 1) :
    ∃ k, Turn x p m (p + DSIZE + ((m + 1) / 2 - 1) * roundUp (QEVEN x)) (roundUp (QEVEN x)) k := by
  rcases hx with rfl | rfl
  · simp only [mode_two] at hm ⊢
    refine ⟨(3999 - m / 2) * 24, ?_, by omega, fun a n => ?_⟩
    · rw [mem_rowsBehind]
      simp only [mode_two]
      omega
    · rw [mem_rowsBehind, mem_rowsBehind]
      simp only [mode_two, DSIZE]
      rintro ⟨hn, ⟨ha, he⟩ | ⟨ha, he⟩⟩
      · right
        omega
      · left
        omega
  · simp only [mode_three] at hm ⊢
    refine ⟨(1999 - m / 2) * 72, ?_, by omega, fun a n => ?_⟩
    · rw [mem_rowsBehind]
      simp only [mode_three]
      omega
    · rw [mem_rowsBehind, mem_rowsBehind]
      simp only [mode_three, DSIZE]
      rintro ⟨hn, ⟨ha, he⟩ | ⟨ha, he⟩⟩
      · right
        omega
      · left
        omega

/-- Behind the last request for a row there is no row left. -/
theorem rows_done {x p m : Nat} (hx : x = 2 ∨ x = 3) (hm : MAXQ x ≤ m) : rowsBehind x p m = [] := by
  rw [List.eq_nil_iff_forall_not_mem]
  rintro ⟨a, n⟩ he
  rw [mem_rowsBehind] at he
  rcases hx with rfl | rfl
  · simp only [mode_two] at he hm
    omega
  · simp only [mode_three] at he hm
    omega

theorem scaled_eq {p m k : Nat} (h : p + m * k < 2 ^ 64) : scaled p (m : Int) k = p + m * k := by
  unfold scaled
  omega

theorem count_eq {h : Heap} {m : Nat} (hm : h.Q_no = m) (hlt : m < 2 ^ 31)
    (h0 : 0 ≤ h.count.Q_no) : h.count.Q_no = ((m + 1 : Nat) : Int) := by
  unfold Heap.count at h0 ⊢
  simp only [hm, Int.bmod] at h0 ⊢
  omega

/-- A free block ends below the address where the memory wraps. -/
theorem FreeAt.lt {h : Heap} {bs : List Block} {s k : Nat} (hs : FreeAt h bs s k)
    (hw : Tiled h bs) : s + k < 2 ^ 64 := by
  obtain ⟨n, hn, l, r, rfl, rfl⟩ := hs
  obtain ⟨h1, -, h3, h4, -⟩ := hw.bounds
  have h5 := hw.bound
  have h6 := hw.start_lt
  unfold Heap.behind
  simp only at h1 h4
  omega

/-! ## Where a request of the expected size goes -/

/-- A request in a trace mode is no reason to worry: in mode 1, and in the others behind
their rows, a free block has room for it; on the rows the counter has not wrapped round. -/
def AsksWell (h : Heap) (size : Nat) : Prop :=
  InMode h → size = expected h →
    if h.TR = 1 then Room h (roundUp size)
    else if h.count.Q_no ≥ MAXQ h.TR then CursorFits h ∧ Room h (roundUp size)
    else 0 ≤ h.count.Q_no

instance (h : Heap) (size : Nat) : Decidable (AsksWell h size) :=
  inferInstanceAs (Decidable (InMode h → size = expected h → if h.TR = 1 then _ else _))

section Placed

variable {h : Heap} {bs : List Block} {size : Nat}

theorem expected_size (h : Heap) : 0 < expected h ∧ expected h < 2 ^ 64 - 15 := by
  unfold expected QA1 QFINAL QODD QEVEN
  split_ifs <;> omega

theorem first_fit_spec (asize : Nat) (hw : Tiled h bs) (hroom : ∃ b ∈ bs, Fits asize b) :
    ∃ q, first_fit h asize = some q ∧ FreeAt h bs q asize := by
  unfold first_fit
  rw [first_fit_loop_eq h asize _ _ h.end_, hw.listp_behind]
  rcases to_tail_spec (l := []) asize hw hw.length_lt (e := h.end_) with
    ⟨l, k, r, e, rfl, hk, -, hrun⟩ | ⟨hno, -⟩
  · rw [hrun]
    exact ⟨h.behind l, rfl, k, hk, l, r, rfl, rfl⟩
  · obtain ⟨b, hb, hfit⟩ := hroom
    exact absurd hfit (hno b hb)

/-- What a mode places: the block is free and large enough, and the rows go on. -/
structure Places (h e h' : Heap) (bs bs' : List Block) (q asize : Nat) : Prop where
  chosen : chosen h asize = some (q, e)
  same : ∃ j d c, e = { h with just := j, end_ := d, Q_no := c }
  counted : h.TR ≠ 1 → e.Q_no = h.count.Q_no
  ne : q ≠ 0
  free : FreeAt e bs q asize
  run : place e q asize = some h'
  granted : Granted e h' bs bs' (fun _ => False) q asize
  rows : Rows h' bs'

/-- A mode takes the end of a row. -/
theorem turn_placed (hw : WellFormed h bs) (hr : Rows h bs) (hT : h.TR = 2 ∨ h.TR = 3)
    {m s asize k : Nat} (hm : h.Q_no = m) (hc : h.count.Q_no = ((m + 1 : Nat) : Int))
    (hlt : ((m + 1 : Nat) : Int) < MAXQ h.TR) (ht : Turn h.TR h.heap_listp m s asize k)
    (h8 : 8 ≤ asize) (hd : 8 ∣ asize) (hch : chosen h asize = some (s, h.count)) :
    ∃ h' bs', Places h h.count h' bs bs' s asize := by
  have hrows : h.rows = rowsBehind h.TR h.heap_listp m := by
    unfold Heap.rows
    rw [if_pos hT, hm]
    rfl
  have hfree : FreeAt h bs s k := hr.free (s, k) (hrows ▸ ht.row)
  have hw' : WellFormed h.count bs := hw.modes _ _ _
  have hfree' : FreeAt h.count bs s k := hfree
  obtain ⟨h', bs', hrun, hg, hne, hrest, hother⟩ := place_free hw' hfree' h8 hd ht.le
  obtain ⟨n, hn, hb⟩ := hfree
  have hTR : h'.TR = h.TR := hg.TR
  have hQ : h'.Q_no = ((m + 1 : Nat) : Int) := hg.Q_no.trans hc
  have hlp : h'.heap_listp = h.heap_listp := by
    rw [hg.wf.listp, hg.keeps.start, ← hw'.listp]
    rfl
  have hrows' : h'.rows = rowsBehind h.TR h.heap_listp (m + 1) := by
    unfold Heap.rows
    rw [hTR, if_pos hT, hQ, hlp]
    rfl
  refine ⟨h', bs', hch, ⟨h.just, h.end_, _, rfl⟩, fun _ => rfl, hne, ⟨n, Nat.le_trans ht.le hn, hb⟩, hrun, hg,
    ?_, ?_⟩
  · intro _
    rw [hQ]
    have hmax : MAXQ h.TR ≤ 8000 := by
      unfold MAXQ
      split <;> omega
    omega
  · rintro ⟨a, n⟩ he
    rw [hrows'] at he
    rcases ht.next a n he with ⟨hold, hne'⟩ | ⟨hlt', rfl, rfl⟩
    · exact hother a n (hr.free (a, n) (hrows ▸ hold)) hne'
    · exact hrest hlt'

theorem count_lt (h : Heap) : h.count.Q_no < 2 ^ 31 := by
  unfold Heap.count
  simp only [Int.bmod]
  omega

/-- Mode 1 takes the first block that fits. -/
theorem fit_placed (hw : WellFormed h bs) {asize : Nat} (h1 : h.TR = 1) (h8 : 8 ≤ asize)
    (hd : 8 ∣ asize) (hroom : Room h asize) : ∃ q e h' bs', Places h e h' bs bs' q asize := by
  obtain ⟨q, hfit, hfree⟩ := first_fit_spec asize hw.toTiled ((room_iff hw.toTiled).mp hroom)
  obtain ⟨h', bs', hrun, hg, hne, -⟩ := place_free hw hfree h8 hd (Nat.le_refl _)
  refine ⟨q, h, h', bs', ?_, ⟨h.just, h.end_, h.Q_no, rfl⟩, fun h2 => absurd h1 h2, hne, hfree, hrun, hg, rows_none ?_⟩
  · unfold chosen
    rw [if_pos h1, hfit]
    rfl
  · rw [hg.TR]
    omega

/-- Behind the rows the next fit is asked. -/
theorem search_placed (hw : WellFormed h bs) {asize : Nat} (hT : h.TR = 2 ∨ h.TR = 3)
    (h8 : 8 ≤ asize) (hd : 8 ∣ asize) (hlast : h.count.Q_no ≥ MAXQ h.TR) (hcur : CursorFits h)
    (hroom : Room h asize) : ∃ q e h' bs', Places h e h' bs bs' q asize := by
  have hw' : WellFormed h.count bs := hw.modes _ _ _
  have hj : JustAt h.count bs := hcur.justAt hw.toTiled
  rcases next_fit_spec asize hw'.toTiled hj with ⟨l, k, r, d, rfl, hk, hfit⟩ | ⟨hno, -⟩
  · have hfree : FreeAt { h.count with just := h.behind l, end_ := d }
        (l ++ ⟨k, false⟩ :: r) (h.behind l) asize := ⟨k, hk, l, r, rfl, rfl⟩
    obtain ⟨h', bs', hrun, hg, hne, -⟩ :=
      place_free (hw'.cursors (h.behind l) d) hfree h8 hd (Nat.le_refl _)
    have hTR : h'.TR = h.TR := hg.TR
    have hQ : h'.Q_no = h.count.Q_no := hg.Q_no
    have hlt := count_lt h
    have hpos : 0 ≤ MAXQ h.TR := by
      unfold MAXQ
      split <;> omega
    obtain ⟨m, hm⟩ := Int.eq_ofNat_of_zero_le (show 0 ≤ h.count.Q_no by omega)
    refine ⟨h.behind l, _, h', bs', ?_, ⟨h.behind l, d, h.count.Q_no, rfl⟩, fun _ => rfl, hne,
      hfree, hrun, hg, fun _ => by omega, ?_⟩
    · unfold chosen
      rw [if_neg (by omega), if_pos hlast, hfit]
      rfl
    · intro e he
      have hnil : rowsBehind h.TR h'.heap_listp m = [] := by
        apply rows_done hT
        rw [hm] at hlast
        exact hlast
      unfold Heap.rows at he
      rw [hTR, if_pos hT, hQ, hm, Int.toNat_natCast, hnil] at he
      cases he
  · obtain ⟨b, hb, hfit⟩ := (room_iff hw.toTiled).mp hroom
    exact absurd hfit (hno b hb)

/-- On the rows the number of the request says where it goes. -/
theorem row_placed (hw : WellFormed h bs) (hr : Rows h bs) (hT : h.TR = 2 ∨ h.TR = 3)
    (hlast : ¬ h.count.Q_no ≥ MAXQ h.TR) (h0 : 0 ≤ h.count.Q_no) {asize : Nat}
    (hq : asize = roundUp (expected h)) : ∃ q e h' bs', Places h e h' bs bs' q asize := by
  obtain ⟨hQ0, hQlt⟩ := hr.counts hT
  obtain ⟨m, hQ⟩ := Int.eq_ofNat_of_zero_le hQ0
  have hc := count_eq (h := h) hQ (by omega) h0
  have hlt : ((m + 1 : Nat) : Int) < MAXQ h.TR := by
    rw [← hc]
    omega
  have h8 : 8 ≤ asize := by
    have := (roundUp_spec (expected_size h).2).1
    omega
  have hd : 8 ∣ asize := hq ▸ roundUp_dvd _
  have hrows : h.rows = rowsBehind h.TR h.heap_listp m := by
    unfold Heap.rows
    rw [if_pos hT, hQ]
    rfl
  -- A row goes on inside the heap, so the product does not wrap.
  have hbound : ∀ {s k : Nat}, Turn h.TR h.heap_listp m s asize k → s < 2 ^ 64 := by
    intro s k ht
    have := (hr.free (s, k) (hrows ▸ ht.row)).lt hw.toTiled
    simp only at this
    omega
  by_cases ho : (m + 1) % 2 = 1
  · obtain ⟨k, ht⟩ := turn_odd (p := h.heap_listp) hT hlt ho
    have hsz : asize = roundUp (QODD h.TR) := by
      rw [hq]
      unfold expected
      rw [if_neg (by omega), if_neg hlast, if_pos (by rw [hc]; omega)]
    rw [← hsz] at ht
    obtain ⟨h', bs', hp⟩ := turn_placed hw hr hT hQ hc hlt ht h8 hd (by
      have hdiv : (h.count.Q_no - 1).tdiv 2 = ((m / 2 : Nat) : Int) := by
        rw [hc, show ((m + 1 : Nat) : Int) - 1 = (m : Int) by omega]
        rfl
      unfold chosen
      rw [if_neg (by omega), if_neg hlast, if_pos (by rw [hc]; omega), hdiv,
        scaled_eq (hbound ht)])
    exact ⟨_, _, h', bs', hp⟩
  · obtain ⟨k, ht⟩ := turn_even (p := h.heap_listp) hT hlt ho
    have hsz : asize = roundUp (QEVEN h.TR) := by
      rw [hq]
      unfold expected
      rw [if_neg (by omega), if_neg hlast, if_neg (by rw [hc]; omega)]
    rw [← hsz] at ht
    obtain ⟨h', bs', hp⟩ := turn_placed hw hr hT hQ hc hlt ht h8 hd (by
      have hdiv : h.count.Q_no.tdiv 2 - 1 = (((m + 1) / 2 - 1 : Nat) : Int) := by
        rw [hc]
        show (((m + 1) / 2 : Nat) : Int) - 1 = _
        omega
      unfold chosen
      rw [if_neg (by omega), if_neg hlast, if_neg (by rw [hc]; omega), hdiv,
        scaled_eq (hbound ht)])
    exact ⟨_, _, h', bs', hp⟩

/-- A request of the size that the mode expects. -/
theorem mode_placed (hw : WellFormed h bs) (hr : Rows h bs) (hm : InMode h)
    (hq : size = expected h) (ha : AsksWell h size) :
    ∃ q e h' bs', Places h e h' bs bs' q (roundUp size) := by
  have hsize := expected_size h
  rw [← hq] at hsize
  have h8 : 8 ≤ roundUp size := by
    have := (roundUp_spec hsize.2).1
    omega
  have hd := roundUp_dvd size
  have hask := ha hm hq
  by_cases h1 : h.TR = 1
  · rw [if_pos h1] at hask
    exact fit_placed hw h1 h8 hd hask
  · rw [if_neg h1] at hask
    have hT := hm.2.resolve_left h1
    by_cases hlast : h.count.Q_no ≥ MAXQ h.TR
    · rw [if_pos hlast] at hask
      exact search_placed hw hT h8 hd hlast hask.1 hask.2
    · rw [if_neg hlast] at hask
      exact row_placed hw hr hT hlast hask (by rw [hq])

end Placed
/-! ## The start of a mode -/

section Start

variable {h h' : Heap} {os exth asize size : Nat}

/-- The free blocks on both sides of the first block. -/
theorem firstBlocks_free (hw : Tiled h (firstBlocks exth os asize)) (h8 : 8 ≤ os) :
    FreeAt h (firstBlocks exth os asize) (h.heap_listp + 8) (os - 8) ∧
      FreeAt h (firstBlocks exth os asize) (h.heap_listp + os + asize)
        (4096 + exth - (os - 8) - asize) := by
  have hlist := hw.listp_behind
  constructor
  · refine ⟨os - 8, Nat.le_refl _, [prologue], _, rfl, ?_⟩
    rw [hlist]
    rfl
  · refine ⟨4096 + exth - (os - 8) - asize, Nat.le_refl _,
      [prologue, ⟨os - 8, false⟩, ⟨asize, true⟩], [], rfl, ?_⟩
    rw [hlist]
    unfold Heap.behind
    simp only [total_cons, total_nil, prologue]
    omega

/-- Both rows of mode 2 begin in free blocks with room for them. -/
theorem rows_two (hw : Tiled h (firstBlocks EXTH2 (OSINIT 2) 24)) (hT : h.TR = 2)
    (hQ : h.Q_no = 0) : Rows h (firstBlocks EXTH2 (OSINIT 2) 24) := by
  refine ⟨fun _ => by omega, ?_⟩
  rintro ⟨a, n⟩ he
  unfold Heap.rows at he
  rw [if_pos (Or.inl hT), hT, hQ, mem_rowsBehind] at he
  simp only [mode_two, DSIZE, EXTH2] at he hw ⊢
  obtain ⟨⟨j, hj, hleft⟩, k, hk, hright⟩ := firstBlocks_free hw (by omega)
  obtain ⟨-, ⟨rfl, rfl⟩ | ⟨rfl, rfl⟩⟩ := he
  · exact ⟨j, hj, hleft⟩
  · exact ⟨k, Nat.le_trans (by decide) hk, hright⟩

/-- And so do those of mode 3. -/
theorem rows_three (hw : Tiled h (firstBlocks EXTH3 (OSINIT 3) 72)) (hT : h.TR = 3)
    (hQ : h.Q_no = 0) : Rows h (firstBlocks EXTH3 (OSINIT 3) 72) := by
  refine ⟨fun _ => by omega, ?_⟩
  rintro ⟨a, n⟩ he
  unfold Heap.rows at he
  rw [if_pos (Or.inr hT), hT, hQ, mem_rowsBehind] at he
  simp only [mode_three, DSIZE, EXTH3] at he hw ⊢
  obtain ⟨⟨j, hj, hleft⟩, k, hk, hright⟩ := firstBlocks_free hw (by omega)
  obtain ⟨-, ⟨rfl, rfl⟩ | ⟨rfl, rfl⟩⟩ := he
  · exact ⟨j, hj, hleft⟩
  · exact ⟨k, Nat.le_trans (by decide) hk, hright⟩

/-- The first request, of a size that chooses a mode. -/
theorem mm_malloc_chooses (hw : WellFormed h [prologue, ⟨4096, false⟩]) (hf : h.fmalloc = true)
    (hQ : h.Q_no = -1) (hs : size = TR1 ∨ size = TR2 ∨ size = TR3) :
    ∃ q t n h' bs', mm_malloc h size = some (q, h') ∧ q ≠ 0 ∧
      Granted { h with fmalloc := false, TR := t, Q_no := n } h' [prologue, ⟨4096, false⟩] bs'
        (fun _ => False) q (roundUp size) ∧ Rows h' bs' := by
  have hpos : ∀ os, h.heap_listp + os ≠ 0 := by
    intro os
    have := hw.listp
    omega
  have hcount : (h.Q_no + 1).bmod (2 ^ 32) = 0 := by
    rw [hQ]
    rfl
  rcases hs with rfl | rfl | rfl
  · obtain ⟨h', hrun, hg, -⟩ := lay_first_spec EXTH2 (OSINIT 2) (roundUp TR1)
      (hw.modes false 2 0) (by decide) (by decide) (by decide) (by decide)
      (by decide) (by decide) (by decide) (by decide)
    refine ⟨_, 2, 0, h', _, ?_, hpos (OSINIT 2), hg, rows_two hg.wf.toTiled hg.TR hg.Q_no⟩
    rw [← hrun, ← hcount]
    unfold mm_malloc
    rw [if_neg (by decide), if_pos hf, if_neg (by decide), if_pos rfl]
    rfl
  · obtain ⟨h', hrun, hg, -⟩ := lay_first_spec EXTH3 (OSINIT 3) (roundUp TR2)
      (hw.modes false 3 0) (by decide) (by decide) (by decide) (by decide)
      (by decide) (by decide) (by decide) (by decide)
    refine ⟨_, 3, 0, h', _, ?_, hpos (OSINIT 3), hg, rows_three hg.wf.toTiled hg.TR hg.Q_no⟩
    rw [← hrun, ← hcount]
    unfold mm_malloc
    rw [if_neg (by decide), if_pos hf, if_neg (by decide), if_neg (by decide), if_pos rfl]
    rfl
  · obtain ⟨h', hrun, hg, -⟩ := lay_first_spec EXTH1 OS1 (roundUp TR3)
      (hw.modes false 1 h.Q_no) (by decide) (by decide) (by decide)
      (by decide) (by decide) (by decide) (by decide) (by decide)
    refine ⟨_, 1, h.Q_no, h', _, ?_, hpos OS1, hg, rows_none (by
      have hTR : h'.TR = 1 := hg.TR
      omega)⟩
    rw [← hrun]
    unfold mm_malloc
    rw [if_neg (by decide), if_pos hf, if_pos rfl]

end Start

end ics_labs.mm
