-- The other requests in a trace mode: a block is freed, shrunk, grown or moved. What is
-- kept of the rows, and what is kept once the mode is over.
import IcsLabs.MmModes
import IcsLabs.Runs

open ics_labs.byte_words ics_labs.boundary_tags ics_labs.runs

namespace ics_labs.mm

/-! ## Where no mode is active -/

/-- The first request is over, and no mode is active. -/
def Over (h : Heap) : Prop := h.fmalloc = false ∧ ¬ (h.TR = 1 ∨ h.TR = 2 ∨ h.TR = 3)

section Over

variable {h : Heap}

theorem PUT_over (ho : Over h) (p v : Nat) : Ends Over (PUT h p v) := by
  unfold PUT
  split
  · exact ends_some ho
  · exact ends_none _

theorem PUT_TAGS_over (ho : Over h) (bp v : Nat) : Ends Over (PUT_TAGS h bp v) :=
  ends_bind (PUT_over ho _ _) fun _ hg => ends_read fun _ => PUT_over hg _ _

theorem memmove_over (ho : Over h) (dst src n : Nat) : Ends Over (memmove h dst src n) := by
  unfold memmove
  split
  · exact ends_some ho
  · exact ends_none _

theorem merge_over (ho : Over h) (bp pa na size : Nat) :
    Ends (fun v => Over v.2) (merge h bp pa na size) := by
  unfold merge
  split
  · exact ends_read fun _ => ends_read fun _ => ends_bind (PUT_TAGS_over ho _ _) fun _ hg =>
      ends_some hg
  · split
    · exact ends_read fun _ => ends_read fun _ => ends_read fun _ =>
        ends_bind (PUT_over ho _ _) fun _ hg => ends_read fun _ =>
        ends_bind (PUT_over hg _ _) fun _ hk => ends_read fun _ => ends_some hk
    · exact ends_read fun _ => ends_read fun _ => ends_read fun _ => ends_read fun _ =>
        ends_read fun _ => ends_read fun _ => ends_bind (PUT_over ho _ _) fun _ hg =>
        ends_read fun _ => ends_read fun _ => ends_bind (PUT_over hg _ _) fun _ hk =>
        ends_read fun _ => ends_some hk

theorem coalesce_over (ho : Over h) (bp : Nat) : Ends (fun v => Over v.2) (coalesce h bp) := by
  refine ends_read fun _ => ends_read fun _ => ends_read fun _ => ends_read fun _ =>
    ends_read fun _ => ends_read fun _ => ?_
  split
  · exact ends_some ho
  · refine ends_bind (merge_over ho _ _ _ _) ?_
    rintro ⟨q, g⟩ hg
    simp only
    split
    · refine ends_read fun _ => ?_
      split
      · exact ends_some hg
      · exact ends_some hg
    · exact ends_some hg

theorem mem_sbrk_over (ho : Over h) (incr : Int) : Over (mem_sbrk h incr).2 := by
  unfold mem_sbrk
  split
  · exact ho
  · exact ho

theorem extend_heap_over (ho : Over h) (words : Nat) :
    Ends (fun v => Over v.2) (extend_heap h words) := by
  have htail : ∀ (size : Nat) (r : Option Nat × Heap), Over r.2 →
      Ends (fun v => Over v.2) (free_tail size r) := by
    rintro size ⟨_ | bp, g⟩ hg
    · exact ends_some hg
    · exact ends_bind (PUT_TAGS_over hg _ _) fun _ h1 => ends_read fun _ =>
        ends_bind (PUT_over h1 _ _) fun _ h2 => coalesce_over h2 _
  exact htail _ _ (mem_sbrk_over ho _)

theorem place_over (ho : Over h) (bp asize : Nat) : Ends Over (place h bp asize) := by
  refine ends_read fun _ => ?_
  split
  · exact ends_bind (PUT_TAGS_over ho _ _) fun _ hg => ends_read fun _ => PUT_TAGS_over hg _ _
  · exact PUT_TAGS_over ho _ _

theorem next_fit_over (ho : Over h) (asize : Nat) : Ends (fun v => Over v.2) (next_fit h asize) := by
  refine ends_read fun v => ?_
  simp only
  split
  · exact ends_some ho
  · refine ends_read fun _ => ?_
    split
    · exact ends_some ho
    · exact ends_some ho

theorem norm_malloc_over (ho : Over h) (asize : Nat) :
    Ends (fun v => Over v.2) (norm_malloc h asize) := by
  refine ends_bind (next_fit_over ho asize) ?_
  rintro ⟨q, g⟩ hg
  simp only
  split
  · exact ends_bind (place_over hg _ _) fun _ h1 => ends_some h1
  · refine ends_read fun _ => ends_bind (extend_heap_over hg _) ?_
    rintro ⟨w, k⟩ hk
    simp only
    split
    · exact ends_some hk
    · exact ends_bind (place_over hk _ _) fun _ h1 => ends_some h1

theorem mm_malloc_over (ho : Over h) (size : Nat) : Ends (fun v => Over v.2) (mm_malloc h size) := by
  unfold mm_malloc later_malloc
  split
  · exact ends_some ho
  · rw [if_neg (by simp [ho.1]), if_neg (by have := ho.2; omega), if_neg (by have := ho.2; omega)]
    exact norm_malloc_over ho _

theorem mm_free_over (ho : Over h) (p : Nat) : Ends Over (mm_free h p) := by
  unfold mm_free
  split
  · exact ends_some ho
  · exact ends_read fun _ => ends_bind (PUT_TAGS_over ho _ _) fun _ hg =>
      ends_bind (coalesce_over hg _) fun _ hv => ends_some hv

/-- A block is moved: no mode is active behind it if none is behind its `mm_malloc`. -/
theorem norm_realloc_over {p size old : Nat} (hm : Ends (fun v => Over v.2) (mm_malloc h size)) :
    Ends (fun v => Over v.2) (norm_realloc h p size old) := by
  refine ends_bind hm fun v hv => ?_
  simp only
  split
  · exact ends_some hv
  · exact ends_bind (memmove_over hv _ _ _) fun _ hg => ends_bind (mm_free_over hg _) fun _ hk =>
      ends_some hk

theorem settle_over (ho : Over h) (bp asize rest : Nat) (more : Prop) [Decidable more] :
    Ends (fun v => Over v.2) (settle h bp asize more rest) := by
  refine ends_bind (PUT_TAGS_over ho _ _) fun _ hg => ?_
  split
  · exact ends_read fun _ => ends_bind (PUT_TAGS_over hg _ _) fun _ hk => ends_some hk
  · exact ends_some hg

theorem shrink_over (ho : Over h) (p old asize : Nat) :
    Ends (fun v => Over v.2) (shrink h p old asize) :=
  ends_read fun _ => ends_bind (PUT_over ho _ _) fun _ h1 =>
    ends_bind (PUT_TAGS_over h1 _ _) fun _ h2 => ends_read fun _ =>
    ends_bind (PUT_over h2 _ _) fun _ h3 => ends_bind (coalesce_over h3 _) fun _ h4 => ends_some h4

theorem grow_over (ho : Over h) (p size old asize : Nat) :
    Ends (fun v => Over v.2) (grow h p size old asize) := by
  refine ends_read fun _ => ends_read fun _ => ends_read fun _ => ends_read fun _ =>
    ends_read fun _ => ends_read fun _ => ?_
  have hT : h.TR ≠ 1 := fun h1 => ho.2 (Or.inl h1)
  rw [if_neg hT]
  split
  · exact ends_bind (memmove_over ho _ _ _) fun _ hg => settle_over hg _ _ _ _
  · split
    · exact ends_bind (memmove_over ho _ _ _) fun _ hg => settle_over hg _ _ _ _
    · split
      · exact settle_over ho _ _ _ _
      · exact norm_realloc_over (mm_malloc_over ho size)

theorem mm_realloc_over (ho : Over h) (p size : Nat) :
    Ends (fun v => Over v.2) (mm_realloc h p size) := by
  unfold mm_realloc
  split
  · exact mm_malloc_over ho size
  · split
    · exact ends_bind (mm_free_over ho p) fun _ hg => ends_some hg
    · refine ends_read fun _ => ?_
      simp only
      split
      · exact ends_some ho
      · split
        · exact shrink_over ho _ _ _
        · exact grow_over ho _ _ _ _

end Over

/-! ## What a request ends in -/

/-- A request gave out a block, and the rows are kept. The statics may have moved. -/
def Gives (h : Heap) (bs : List Block) (gone : Nat → Prop) (asize : Nat)
    (r : Option (Nat × Heap)) : Prop :=
  ∃ q j d t c h' bs', r = some (q, h') ∧ q ≠ 0 ∧
    Granted { h with just := j, end_ := d, TR := t, Q_no := c } h' bs bs' gone q asize ∧ Rows h' bs'

/-- A request outside the modes gave NULL, and only statics have moved. -/
def Refuses (h : Heap) (r : Option (Nat × Heap)) : Prop :=
  ∃ d t c, r = some (0, { h with end_ := d, TR := t, Q_no := c }) ∧ ¬ (t = 2 ∨ t = 3)

/-- The call of `mm_malloc` that a request comes to: its heap and its size. -/
def asks (h : Heap) : Call → Option (Heap × Nat)
  | .malloc size => some (h, size)
  | .free _ => none
  | .realloc p size =>
    if p = 0 then some (h, size)
    else if size = 0 then none
    else (GET_SIZE h (HDRP p)).bind fun old =>
      if roundUp size ≤ old then none
      else if h.TR = 1 then (if size > QR1 then some ({ h with TR := 0 }, size) else none)
      else if (inPlace h p old (roundUp size)).isSome then none
      else some (h, size)

/-- A trace mode takes the request, or the request chooses one. -/
def ByMode (h : Heap) (size : Nat) : Prop :=
  (InMode h ∧ size = expected h) ∨
    h.fmalloc = true ∧ (size = TR1 ∨ size = TR2 ∨ size = TR3)

instance (h : Heap) (size : Nat) : Decidable (ByMode h size) := inferInstanceAs (Decidable (_ ∨ _))

/-- The request comes to `norm_malloc`. -/
def Searches (h : Heap) (c : Call) : Prop :=
  ∃ e, asks h c = some (e, c.size) ∧ c.size ≠ 0 ∧ ¬ ByMode e c.size

/-- A request keeps the rows, or it comes to `norm_malloc` and no mode is active. Then it
goes well with the cursor at a block. -/
def Outcome (h : Heap) (bs : List Block) (c : Call) (r : Option (Nat × Heap)) : Prop :=
  (c.size < 2 ^ 64 - 15 ∧ Gives h bs c.names (roundUp c.size) r) ∨
    Searches h c ∧ Ends (fun v => Over v.2) r ∧ (JustAt h bs → c.size < 2 ^ 31 - 16 →
      Gives h bs c.names (roundUp c.size) r ∨ Refuses h r)

section Outcome

variable {h h' : Heap} {bs bs' : List Block} {p old size : Nat}

theorem Over.rows (ho : Over h) : Rows h bs := rows_none fun h1 => ho.2 (Or.inr h1)

/-- A request that keeps the counters keeps the rows that it does not touch. -/
theorem Rows.served {gone : Nat → Prop} (hr : Rows h bs) (hw : WellFormed h bs)
    (hs : Served h h' bs bs' gone)
    (hfree : ∀ e ∈ h.rows, FreeAt h bs e.1 e.2 → FreeAt h' bs' e.1 e.2) : Rows h' bs' := by
  apply hr.kept hs.TR hs.Q_no _ hfree
  rw [hs.wf.listp, hs.keeps.start, ← hw.listp]

/-- A request of any other size than the expected one. -/
theorem mm_malloc_other (hf : h.fmalloc = false) (hs : size ≠ 0)
    (hq : ¬ (InMode h ∧ size = expected h)) :
    ∃ t c, mm_malloc h size = norm_malloc { h with TR := t, Q_no := c } (roundUp size) ∧
      Over { h with TR := t, Q_no := c } := by
  by_cases hm : InMode h
  · have hne : size ≠ expected h := fun he => hq ⟨hm, he⟩
    rw [mm_malloc_mode hm hs, if_neg hne]
    unfold Heap.left
    split
    · exact ⟨0, h.Q_no, rfl, hf, by simp⟩
    · exact ⟨0, h.count.Q_no, rfl, hf, by simp⟩
  · have hT : ¬ (h.TR = 1 ∨ h.TR = 2 ∨ h.TR = 3) := fun h1 => hm ⟨hf, h1⟩
    refine ⟨h.TR, h.Q_no, ?_, hf, hT⟩
    unfold mm_malloc later_malloc
    rw [if_neg hs, if_neg (by simp [hf]), if_neg (by omega), if_neg (by omega)]

/-- `mm_malloc` behind the first request. -/
theorem mm_malloc_outcome (hw : WellFormed h bs) (hr : Rows h bs) (hf : h.fmalloc = false)
    (hs : size ≠ 0) (ha : AsksWell h size) :
    Outcome h bs (.malloc size) (mm_malloc h size) := by
  by_cases hq : InMode h ∧ size = expected h
  · left
    obtain ⟨q, e, h', bs', hp⟩ := mode_placed hw hr hq.1 hq.2 ha
    obtain ⟨j, d, c, rfl⟩ := hp.same
    refine ⟨hq.2 ▸ (expected_size h).2, q, j, d, h.TR, c, h', bs', ?_, hp.ne, hp.granted, hp.rows⟩
    rw [mm_malloc_mode hq.1 hs, if_pos hq.2, hp.chosen, Option.bind_some]
    show (place _ q (roundUp size)).bind (fun h => some (q, h)) = _
    rw [hp.run, Option.bind_some]
  · right
    obtain ⟨t, c, hrun, ho⟩ := mm_malloc_other hf hs hq
    have hw' : WellFormed { h with TR := t, Q_no := c } bs := hw.modes h.fmalloc t c
    rw [hrun]
    refine ⟨⟨h, rfl, hs, ?_⟩, norm_malloc_over ho _, ?_⟩
    · rintro (hm | ⟨hft, -⟩)
      · exact hq hm
      · rw [hf] at hft
        cases hft
    intro hj hlt
    change size < 2 ^ 31 - 16 at hlt
    obtain ⟨h1, h2⟩ := roundUp_spec (n := size) (by omega)
    rcases norm_malloc_spec hw' hj (show 8 ≤ roundUp size by omega) (roundUp_dvd size) (by omega)
      with ⟨e, hm⟩ | ⟨q, h', bs', hm, hq0, hg, -⟩
    · right
      exact ⟨e, t, c, hm, fun h3 => ho.2 (Or.inr h3)⟩
    · left
      have ho' : Over h' := ⟨hg.fmalloc.trans ho.1, by rw [hg.TR]; exact ho.2⟩
      exact ⟨q, h.just, h.end_, t, c, h', bs', hm, hq0, hg, ho'.rows⟩

end Outcome

section Move

variable {h h₀ h' : Heap} {bs bs' : List Block} {p old size : Nat}

/-- The rows behind a request are those behind the counter, if the mode is not over. -/
theorem rows_counted (hw : WellFormed h bs) (hr : Rows h bs) (hf : h.fmalloc = false)
    (hs : size ≠ 0) (ha : AsksWell h size) {v : Nat × Heap} (hm : mm_malloc h size = some v) :
    ∀ e ∈ v.2.rows, InMode h ∧ size = expected h ∧ e ∈ h.count.rows := by
  intro e he
  by_cases hq : InMode h ∧ size = expected h
  · refine ⟨hq.1, hq.2, ?_⟩
    obtain ⟨q, g, h', bs', hp⟩ := mode_placed hw hr hq.1 hq.2 ha
    obtain ⟨j, d, c, rfl⟩ := hp.same
    rw [mm_malloc_mode hq.1 hs, if_pos hq.2, hp.chosen, Option.bind_some] at hm
    change (place _ q (roundUp size)).bind (fun h => some (q, h)) = some v at hm
    rw [hp.run] at hm
    cases hm
    have hTR : h'.TR = h.TR := hp.granted.TR
    have hlist : h'.heap_listp = h.heap_listp := by
      rw [hp.granted.wf.listp, hp.granted.keeps.start, ← hw.listp]
    change e ∈ h'.rows at he
    by_cases h1 : h.TR = 1
    · have hT : ¬ (h'.TR = 2 ∨ h'.TR = 3) := by omega
      unfold Heap.rows at he
      rw [if_neg hT] at he
      cases he
    · have hQ : h'.Q_no = h.count.Q_no := hp.granted.Q_no.trans (hp.counted h1)
      unfold Heap.rows at he ⊢
      rw [hTR, hQ, hlist] at he
      exact he
  · obtain ⟨t, c, hrun, ho⟩ := mm_malloc_other hf hs hq
    rw [hrun] at hm
    have hv := norm_malloc_over ho _ v hm
    unfold Heap.rows at he
    rw [if_neg fun h1 => hv.2 (Or.inr h1)] at he
    cases he

/-- A block is moved to the block that `mm_malloc` gives out. -/
theorem gives_moved (hw : WellFormed h bs) (hp : Live h bs p old) (hlt : old < roundUp size)
    (hg : Gives h bs (fun _ => False) (roundUp size) (mm_malloc h₀ size))
    (hrows : ∀ v, mm_malloc h₀ size = some v → ∀ e ∈ v.2.rows, e.1 ≠ p + old) :
    Gives h bs (fun g => g = p) (roundUp size) (norm_realloc h₀ p size old) := by
  obtain ⟨q, j, d, t, c, h₁, bs₁, hm, hq, hgr, hr₁⟩ := hg
  have hw' : WellFormed { h with just := j, end_ := d, TR := t, Q_no := c } bs :=
    (hw.cursors j d).modes h.fmalloc t c
  have hp' : Live { h with just := j, end_ := d, TR := t, Q_no := c } bs p old := hp
  have h8 : 8 ∣ old := by
    obtain ⟨l, r, rfl, -, -⟩ := hp
    exact hw.toTiled.bounds.2.1
  have hd := roundUp_dvd size
  obtain ⟨h', bs', hrun, hs, hg', -, -, hfree⟩ := norm_realloc_spec hw' hp' hm hq hgr (by omega)
  refine ⟨q, j, d, t, c, h', bs', hrun, hq, hg', ?_⟩
  exact hr₁.served hgr.wf hs fun e he hfr => hfree e.1 e.2 hfr (hrows _ hm e he)

theorem refuses_moved (hn : Refuses h (mm_malloc h₀ size)) :
    Refuses h (norm_realloc h₀ p size old) := by
  obtain ⟨d, t, c, hm, ht⟩ := hn
  exact ⟨d, t, c, norm_realloc_null hm, ht⟩

theorem moved_outcome {t : Nat} (hw : WellFormed h bs) (hp : Live h bs p old)
    (hlt : old < roundUp size) (hasks : asks h (.realloc p size) = some ({ h with TR := t }, size))
    (ho : Outcome { h with TR := t } bs (.malloc size) (mm_malloc { h with TR := t } size))
    (hrows : ∀ v, mm_malloc { h with TR := t } size = some v → ∀ e ∈ v.2.rows, e.1 ≠ p + old) :
    Outcome h bs (.realloc p size) (norm_realloc { h with TR := t } p size old) := by
  rcases ho with ⟨h64, hg⟩ | ⟨⟨e, he, h0, hby⟩, hover, hcur⟩
  · exact Or.inl ⟨h64, gives_moved hw hp hlt hg hrows⟩
  · cases he
    refine Or.inr ⟨⟨_, hasks, h0, hby⟩, norm_realloc_over hover, fun hj hsize => ?_⟩
    exact (hcur hj hsize).imp (fun hg => gives_moved hw hp hlt hg hrows) refuses_moved

end Move

/-! ## Blocks that are freed, shrunk or grown -/

/-- The block at `p` does not end where a row goes on. -/
def EndsApart (h : Heap) (p : Nat) : Prop := ∀ n ∈ GET_SIZE h (HDRP p), ∀ e ∈ h.rows, e.1 ≠ p + n

instance (h : Heap) (p : Nat) : Decidable (EndsApart h p) :=
  inferInstanceAs (Decidable (∀ n ∈ GET_SIZE h (HDRP p), ∀ e ∈ h.rows, e.1 ≠ p + n))

/-- With `asize` bytes at `p`, a block ends inside the heap and no other block in use starts
in it. -/
def GrowsApart (h : Heap) (p asize : Nat) : Prop :=
  p + asize ≤ h.mem_brk ∧ ∀ e ∈ h.blocks, e.2.used = true → ¬ (p < e.1 ∧ e.1 < p + asize)

instance (h : Heap) (p asize : Nat) : Decidable (GrowsApart h p asize) :=
  inferInstanceAs (Decidable (_ ∧ ∀ e ∈ h.blocks, _))

/-- What `mm_realloc` is asked for spares the rows, and in mode 1 the blocks behind. -/
def ReallocsWell (h : Heap) (p size : Nat) : Prop :=
  (InMode h → size < 2 ^ 64 - 15) ∧ ∀ old ∈ GET_SIZE h (HDRP p),
    if roundUp size < old then EndsApart h p
    else if roundUp size = old then True
    else if h.TR = 1 then size ≤ QR1 → GrowsApart h p (roundUp size)
    else
      (∀ v ∈ inPlace h p old (roundUp size), ∀ e ∈ h.rows, e.1 < v.1 ∨ v.1 + v.2 ≤ e.1) ∧
      (inPlace h p old (roundUp size) = none → AsksWell h size ∧
        (InMode h → size = expected h → ∀ e ∈ h.count.rows, e.1 ≠ p + old))

instance (h : Heap) (p size : Nat) : Decidable (ReallocsWell h p size) :=
  inferInstanceAs (Decidable ((InMode h → size < 2 ^ 64 - 15) ∧ ∀ old ∈ GET_SIZE h (HDRP p),
    if roundUp size < old then EndsApart h p
    else if roundUp size = old then True
    else if h.TR = 1 then size ≤ QR1 → GrowsApart h p (roundUp size)
    else
      (∀ v ∈ inPlace h p old (roundUp size), ∀ e ∈ h.rows, e.1 < v.1 ∨ v.1 + v.2 ≤ e.1) ∧
      (inPlace h p old (roundUp size) = none → AsksWell h size ∧
        (InMode h → size = expected h → ∀ e ∈ h.count.rows, e.1 ≠ p + old))))

section Grow

variable {h h' : Heap} {bs bs' : List Block} {p old size asize : Nat}

theorem Live.get_size (hw : Tiled h bs) (hp : Live h bs p old) : GET_SIZE h (HDRP p) = some old := by
  obtain ⟨l, r, rfl, -, rfl⟩ := hp
  exact hw.header.size

theorem mm_free_rows (hw : WellFormed h bs) (hr : Rows h bs) (hp : Live h bs p old)
    (ha : EndsApart h p) :
    ∃ h' bs', mm_free h p = some h' ∧ Served h h' bs bs' (fun q => q = p) ∧ Rows h' bs' := by
  obtain ⟨h', bs', hrun, hs, -, hfree⟩ := mm_free_spec hw hp
  exact ⟨h', bs', hrun, hs, hr.served hw hs fun e he hfr =>
    hfree e.1 e.2 hfr (ha old (hp.get_size hw.toTiled) e he)⟩

/-- A block that grows apart from the others grows into a free one that is large enough. -/
theorem GrowsApart.next (hw : WellFormed h bs) (hp : Live h bs p old) (hlt : old < asize)
    (ha : GrowsApart h p asize) : ∃ l k r, bs = l ++ ⟨old, true⟩ :: ⟨k, false⟩ :: r ∧ l ≠ [] ∧
      p = h.behind l ∧ asize - old ≤ k := by
  obtain ⟨l, r, rfl, hl, rfl⟩ := hp
  obtain ⟨hbrk, hused⟩ := ha
  have hend : h.behind l + old + total r = h.mem_brk := by
    have := hw.toTiled.bounds.2.2.2.1
    unfold Heap.behind
    simp only at this
    omega
  have hat : ∀ (l' r' : List Block) (b : Block), r = l' ++ b :: r' →
      h.behind l + old + total l' < h.behind l + asize → b.used = false := by
    intro l' r' b hr hb
    by_contra hu
    have hu : b.used = true := by simpa using hu
    have h8 := hw.toTiled.bounds.1
    have hmem : (h.behind l + old + total l', b) ∈ h.blocks := by
      rw [mem_blocks hw.toTiled]
      refine ⟨l ++ ⟨old, true⟩ :: l', r', by rw [hr]; simp, ?_⟩
      unfold Heap.behind
      simp only [total_append, total_cons]
      omega
    apply hused _ hmem hu
    simp only at h8 ⊢
    omega
  cases r with
  | nil =>
    simp only [total_nil] at hend
    omega
  | cons b r =>
    have hb := hat [] r b rfl (by simp only [total_nil]; omega)
    obtain ⟨k, u⟩ := b
    simp only at hb
    subst hb
    refine ⟨l, k, r, rfl, hl, rfl, ?_⟩
    by_contra hk
    cases r with
    | nil =>
      simp only [total_cons, total_nil] at hend
      omega
    | cons d r =>
      -- What stands behind a free block is in use.
      have hd := hat [⟨k, false⟩] r d rfl (by simp only [total_cons, total_nil]; omega)
      have hdu := Spaced.used_after_free (l := l ++ [⟨old, true⟩]) (b := ⟨k, false⟩) (r := d :: r)
        (by simpa using hw.spaced) rfl d (by simp)
      rw [hd] at hdu
      cases hdu

/-- `grow` in mode 1 does not look at the block behind. -/
theorem grow_one {l : List Block} {x y : Block} (hb : Between h l x old y) (hT : h.TR = 1) :
    grow h (h.behind (l ++ [x])) size old asize =
      if size > QR1 then norm_realloc { h with TR := 0 } (h.behind (l ++ [x])) size old
      else settle h (h.behind (l ++ [x])) asize (y.size > sub asize old)
        (sub y.size (sub asize old)) := by
  unfold grow
  rw [hb.prev, hb.next]
  show ((GET_SIZE h (HDRP (h.behind l))).bind fun ps => (GET_ALLOC h (HDRP (h.behind l))).bind
    fun pa => (GET_SIZE h (HDRP (h.behind (l ++ [x]) + old))).bind fun ns =>
    (GET_ALLOC h (HDRP (h.behind (l ++ [x]) + old))).bind fun na => if h.TR = 1 then _ else _) = _
  rw [hb.prev_size, hb.prev_alloc, hb.next_size, hb.next_alloc]
  simp only [Option.bind_some]
  rw [if_pos hT]

/-- In mode 1 a block that grows apart from the others grows well. -/
theorem grow_one_spec (hw : WellFormed h bs) (hp : Live h bs p old) (hT : h.TR = 1)
    (hsize : size ≤ QR1) (hlt : old < asize) (h64 : asize < 2 ^ 64) (hd : 8 ∣ asize)
    (ha : GrowsApart h p asize) :
    NEXT_BLKP h p = some (p + old) ∧ FreeAt h bs (p + old) (asize - old) ∧
      ∃ h' bs', grow h p size old asize = some (p, h') ∧
        Granted h h' bs bs' (fun g => g = p) p asize := by
  obtain ⟨l, k, r, rfl, hl, rfl, hk⟩ := ha.next hw hp hlt
  obtain ⟨l, x, rfl⟩ := List.eq_nil_or_concat' l |>.resolve_left hl
  have hw' := hw
  rw [List.append_assoc, List.singleton_append] at hw'
  have hb := hw'.toTiled.between
  obtain ⟨h8, -, -, -, hbig⟩ := hw.toTiled.bounds
  simp only [total_cons] at h8 hbig
  unfold MAX_HEAP at hbig
  have hadd : sub asize old = asize - old := sub_eq (by omega) (by omega)
  have hrest : sub k (asize - old) = k - (asize - old) := sub_eq hk (by omega)
  refine ⟨hb.next, ⟨k, hk, l ++ [x] ++ [⟨old, true⟩], r, by simp, ?_⟩, ?_⟩
  · rw [behind_append h (l ++ [x])]
    simp
  · rw [grow_one hb hT, if_neg (by omega), List.headD_cons, hadd, hrest]
    obtain ⟨h', bs', hrun, hg, -⟩ := grow_right (h := h) (l := l ++ [x]) (y := ⟨k, false⟩)
      (r := r) (k - (asize - old)) (by simp) (by simpa using hw) (by omega) hd hlt
      (by simp only; omega) (k > asize - old) (by omega)
    exact ⟨h', bs', hrun, by simpa using hg⟩

end Grow

section Realloc

variable {h h' : Heap} {bs bs' : List Block} {p old size : Nat}

/-- What the statics were does not matter for what a request gives. -/
theorem gives_of_granted {gone : Nat → Prop} {q asize : Nat} (hq : q ≠ 0)
    (hg : Granted h h' bs bs' gone q asize) (hr : Rows h' bs') :
    Gives h bs gone asize (some (q, h')) :=
  ⟨q, h.just, h.end_, h.TR, h.Q_no, h', bs', rfl, hq, hg, hr⟩

theorem Live.ne_zero (hp : Live h bs p old) : p ≠ 0 := by
  obtain ⟨l, -, -, -, rfl⟩ := hp
  exact behind_pos h l

/-- A live block that has to grow comes to `mm_malloc` when it is not grown in place. -/
theorem asks_grow (hw : WellFormed h bs) (hp : Live h bs p old) (hs : size ≠ 0)
    (hlt : old < roundUp size) : asks h (.realloc p size) =
      if h.TR = 1 then (if size > QR1 then some ({ h with TR := 0 }, size) else none)
      else if (inPlace h p old (roundUp size)).isSome then none else some (h, size) := by
  unfold asks
  simp only
  rw [if_neg hp.ne_zero, if_neg hs, hp.get_size hw.toTiled, Option.bind_some, if_neg (by omega)]

/-- `mm_realloc` of a live block that becomes larger, in mode 1. -/
theorem grow_one_outcome (hw : WellFormed h bs) (hf : h.fmalloc = false) (hp : Live h bs p old)
    (hT : h.TR = 1) (hs : size ≠ 0) (hlt : old < roundUp size) (h64 : size < 2 ^ 64 - 15)
    (hc : size ≤ QR1 → GrowsApart h p (roundUp size)) :
    Outcome h bs (.realloc p size) (grow h p size old (roundUp size)) := by
  obtain ⟨-, h2⟩ := roundUp_spec h64
  by_cases hq : size ≤ QR1
  · left
    have h64' : roundUp size < 2 ^ 64 := by
      unfold QR1 at hq
      omega
    obtain ⟨-, -, h', bs', hrun, hg⟩ :=
      grow_one_spec hw hp hT hq hlt h64' (roundUp_dvd size) (hc hq)
    rw [hrun]
    have hTR : h'.TR = 1 := hg.TR.trans hT
    exact ⟨h64, gives_of_granted hp.ne_zero hg (rows_none (by omega))⟩
  · have hasks := asks_grow hw hp hs hlt
    rw [if_pos hT, if_pos (by omega)] at hasks
    have hgrow : grow h p size old (roundUp size) = norm_realloc { h with TR := 0 } p size old := by
      obtain ⟨l, r, rfl, hl, rfl⟩ := hp
      obtain ⟨l, x, rfl⟩ := List.eq_nil_or_concat' l |>.resolve_left hl
      rw [List.append_assoc, List.singleton_append] at hw
      rw [grow_one hw.toTiled.between hT, if_pos (by omega)]
    have ho : Over { h with TR := 0 } := ⟨hf, by simp⟩
    have hw' : WellFormed { h with TR := 0 } bs := hw.modes h.fmalloc 0 h.Q_no
    rw [hgrow]
    apply moved_outcome hw hp hlt hasks
      (mm_malloc_outcome hw' ho.rows hf hs fun hm => absurd hm.2 ho.2)
    intro v hv e he
    have hover := mm_malloc_over ho size v hv
    unfold Heap.rows at he
    rw [if_neg fun h1 => hover.2 (Or.inr h1)] at he
    cases he

/-- The same in all other modes. -/
theorem grow_outcome (hw : WellFormed h bs) (hr : Rows h bs) (hf : h.fmalloc = false)
    (hp : Live h bs p old) (hT : h.TR ≠ 1) (hs : size ≠ 0) (hlt : old < roundUp size)
    (h64 : size < 2 ^ 64 - 15)
    (hin : ∀ q t, inPlace h p old (roundUp size) = some (q, t) → ∀ e ∈ h.rows, e.1 < q ∨ q + t ≤ e.1)
    (hmove : inPlace h p old (roundUp size) = none → AsksWell h size ∧
      (InMode h → size = expected h → ∀ e ∈ h.count.rows, e.1 ≠ p + old)) :
    Outcome h bs (.realloc p size) (grow h p size old (roundUp size)) := by
  obtain ⟨h1, h2⟩ := roundUp_spec h64
  have h64' : roundUp size < 2 ^ 64 := by
    have := roundUp_dvd size
    omega
  rcases grow_spec size hw hp hT (by omega) (roundUp_dvd size) hlt h64' with
    ⟨q, t, h', bs', hplace, hgrow, hq, hg⟩ | ⟨hplace, hgrow⟩
  · left
    rw [hgrow]
    refine ⟨h64, gives_of_granted hq hg.granted ?_⟩
    exact hr.served hw hg.granted.toServed fun e he hfr => hg.free e.1 e.2 hfr (hin q t hplace e he)
  · obtain ⟨hask, hends⟩ := hmove hplace
    have hasks := asks_grow hw hp hs hlt
    rw [if_neg hT, hplace, if_neg (by simp)] at hasks
    rw [hgrow]
    apply moved_outcome (t := h.TR) hw hp hlt hasks (mm_malloc_outcome hw hr hf hs hask)
    intro v hv e he
    obtain ⟨hm, hq, hrow⟩ := rows_counted hw hr hf hs hask hv e he
    exact hends hm hq e hrow

/-- `mm_realloc` of a live block. -/
theorem mm_realloc_outcome (hw : WellFormed h bs) (hr : Rows h bs) (hf : h.fmalloc = false)
    (hp : Live h bs p old) (hs : size ≠ 0) (h64 : size < 2 ^ 64 - 15) (hc : ReallocsWell h p size) :
    Outcome h bs (.realloc p size) (mm_realloc h p size) := by
  obtain ⟨h1, -⟩ := roundUp_spec h64
  have hcase := hc.2 old (hp.get_size hw.toTiled)
  rw [mm_realloc_eq hw hp hs]
  by_cases heq : roundUp size = old
  · left
    rw [if_pos heq]
    exact ⟨h64, gives_of_granted hp.ne_zero ⟨Served.refl hw _, ⟨old, Nat.le_of_eq heq, hp.blockAt⟩,
      fun _ _ _ => rfl⟩ hr⟩
  · rw [if_neg heq]
    by_cases hless : roundUp size < old
    · left
      rw [if_pos hless] at hcase ⊢
      obtain ⟨h', bs', hrun, hg, -, -, hfree⟩ :=
        shrink_spec hw hp (by omega) (roundUp_dvd size) hless
      rw [hrun]
      exact ⟨h64, gives_of_granted hp.ne_zero hg (hr.served hw hg.toServed fun e he hfr =>
        hfree e.1 e.2 hfr (hcase old (hp.get_size hw.toTiled) e he))⟩
    · rw [if_neg hless, if_neg heq] at hcase
      rw [if_neg hless]
      have hlt : old < roundUp size := by omega
      by_cases hT : h.TR = 1
      · rw [if_pos hT] at hcase
        exact grow_one_outcome hw hf hp hT hs hlt h64 hcase
      · rw [if_neg hT] at hcase
        exact grow_outcome hw hr hf hp hT hs hlt h64
          (fun q t hplace => hcase.1 (q, t) hplace) hcase.2

end Realloc

end ics_labs.mm
