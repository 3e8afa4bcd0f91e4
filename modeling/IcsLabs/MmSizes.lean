-- Requests of any size. A size is a `size_t` in mm.c, an `int` in mem_sbrk and 32 bits in a
-- tag; what a request gets depends on what is lost on the way.
import IcsLabs.MmGeneral

open ics_labs.byte_words ics_labs.boundary_tags

namespace ics_labs.mm

/-! ## The break -/

section Break

variable {h h' : Heap} {p q v : Nat}

theorem PUT_brk (hp : PUT h p v = some h') : h'.mem_brk = h.mem_brk := by
  unfold PUT at hp
  split at hp
  · cases hp
    rfl
  · cases hp

theorem PUT_TAGS_brk (hp : PUT_TAGS h p v = some h') : h'.mem_brk = h.mem_brk := by
  obtain ⟨h₁, h1, hp⟩ := Option.bind_eq_some_iff.mp hp
  obtain ⟨f, -, hp⟩ := Option.bind_eq_some_iff.mp hp
  exact (PUT_brk hp).trans (PUT_brk h1)

/-- `place` leaves the break alone. -/
theorem place_brk (hp : place h p v = some h') : h'.mem_brk = h.mem_brk := by
  obtain ⟨csize, -, hp⟩ := Option.bind_eq_some_iff.mp hp
  by_cases hgt : csize > v
  · rw [if_pos hgt] at hp
    obtain ⟨h₁, h1, hp⟩ := Option.bind_eq_some_iff.mp hp
    obtain ⟨n, -, hp⟩ := Option.bind_eq_some_iff.mp hp
    exact (PUT_TAGS_brk hp).trans (PUT_TAGS_brk h1)
  · rw [if_neg hgt] at hp
    exact PUT_TAGS_brk hp

end Break

/-! ## A size cut short -/

section Cut

variable {h : Heap} {l bs : List Block} {b : Block} {n asize : Nat}

/-- Around a block of no bytes every macro stays where it is. -/
theorem empty_block {t : Nat} (hf : HasTag h t ⟨0, false⟩) (hs : HasTag h (t + 4) b)
    (hb : b.size = 0) : PREV_BLKP h (t + 8) = some (t + 8) ∧ NEXT_BLKP h (t + 8) = some (t + 8) ∧
      FTRP h (t + 8) = some t := by
  have hsize : GET_SIZE h (t + 4) = some 0 := by
    rw [hs.size, hb]
  refine ⟨?_, ?_, ?_⟩
  · show (GET_SIZE h t).bind (fun v => some (t + 8 - v)) = _
    rw [hf.size]
    rfl
  · show (GET_SIZE h (t + 4)).bind (fun v => some (t + 8 + v)) = _
    rw [hsize]
    rfl
  · show (GET_SIZE h (t + 4)).bind (fun v => some (t + 8 + v - 8)) = _
    rw [hsize]
    rfl

theorem put_empty {p : Nat} (hp : InHeap h p 4) : HasTag (h.put p 0) p ⟨0, false⟩ :=
  HasTag.put_same (b := ⟨0, false⟩) hp (by decide) (by decide)

/-- `coalesce` at a block of no bytes in front of which a free block of no bytes ends. -/
theorem coalesce_empty {t : Nat} (hf : HasTag h t ⟨0, false⟩) (hs : HasTag h (t + 4) epilogue) :
    ∃ h', coalesce h (t + 8) = some (t + 8, h') ∧ h'.mem_brk = h.mem_brk := by
  obtain ⟨hprev, hnext, hft⟩ := empty_block hf hs rfl
  have hf₁ : HasTag (h.put t 0) t ⟨0, false⟩ := put_empty hf.inside
  have hs₁ : HasTag (h.put t 0) (t + 4) epilogue := hs.put_other (by omega)
  obtain ⟨hprev₁, -, -⟩ := empty_block hf₁ hs₁ rfl
  have hf₂ : HasTag ((h.put t 0).put (t + 4) 0) t ⟨0, false⟩ :=
    hf₁.put_other (by omega)
  have hs₂ : HasTag ((h.put t 0).put (t + 4) 0) (t + 4) ⟨0, false⟩ :=
    put_empty hs₁.inside
  obtain ⟨hprev₂, hnext₂, -⟩ := empty_block hf₂ hs₂ rfl
  have hmerge : merge h (t + 8) 0 1 0 =
      some (t + 8, (h.put t 0).put (t + 4) 0) := by
    unfold merge
    rw [if_neg (by omega), if_pos ⟨rfl, by decide⟩, hprev]
    show ((GET_SIZE h (t + 4)).bind fun v => (FTRP h (t + 8)).bind fun f => (PUT h f
      (PACK (add64 0 v) 0)).bind fun h => (PREV_BLKP h (t + 8)).bind fun p => (PUT h (HDRP p)
      (PACK (add64 0 v) 0)).bind fun h => (PREV_BLKP h (t + 8)).bind fun p => some (p, h)) = _
    have hzero : PACK (add64 0 epilogue.size) 0 = 0 := rfl
    rw [hs.size, Option.bind_some, hft, Option.bind_some, hzero, PUT_eq hf.inside, Option.bind_some, hprev₁,
      Option.bind_some, show HDRP (t + 8) = t + 4 from rfl, PUT_eq hs₁.inside, Option.bind_some,
      hprev₂, Option.bind_some]
  unfold coalesce
  rw [hprev, hnext]
  show ∃ h', ((FTRP h (t + 8)).bind fun f => (GET_ALLOC h f).bind fun pa =>
    (GET_ALLOC h (t + 4)).bind fun na => (GET_SIZE h (t + 4)).bind fun size =>
    if pa ≠ 0 ∧ na ≠ 0 then some (t + 8, h) else (merge h (t + 8) pa na size).bind fun b =>
      if b.1 < b.2.just then (NEXT_BLKP b.2 b.1).bind fun nx =>
        if b.2.just < nx then some (b.1, { b.2 with just := b.1 }) else some (b.1, b.2)
      else some (b.1, b.2)) = some (t + 8, h') ∧ h'.mem_brk = h.mem_brk
  rw [hft, Option.bind_some, hf.alloc, Option.bind_some, hs.alloc, Option.bind_some, hs.size,
    Option.bind_some]
  show ∃ h', (if 0 ≠ 0 ∧ 1 ≠ 0 then some (t + 8, h) else (merge h (t + 8) 0 1 0).bind _) = _ ∧ _
  rw [if_neg (by omega), hmerge, Option.bind_some, hnext₂]
  split
  · exact ⟨_, if_neg (by omega), rfl⟩
  · exact ⟨_, rfl, rfl⟩

/-- `mem_sbrk(0)` gives the break. What is written there is a block of no bytes, and the
footer of the block before it is lost. -/
theorem extend_heap_zero (hw : Tiled h bs) :
    ∃ h', extend_heap h 0 = some (h.mem_brk, h') ∧ h'.mem_brk = h.mem_brk := by
  have hend := hw.ending.inside
  have hbrk := hw.brk
  have htot : 8 ≤ total bs := by
    obtain ⟨r, rfl⟩ : ∃ r, bs = prologue :: r := by
      have hf := hw.first
      cases bs with
      | nil => simp at hf
      | cons b r => exact ⟨r, by simpa using hf⟩
    simp [prologue]
  obtain ⟨t, ht⟩ : ∃ t, h.base + total bs = t + 4 := ⟨h.base + total bs - 4, by omega⟩
  rw [ht] at hend hbrk
  have hin : InHeap h t 4 := by
    refine ⟨?_, by omega⟩
    unfold Heap.base at ht
    omega
  -- The tags of the empty block, and the epilogue over its header.
  have hs₁ : HasTag (h.put (t + 4) 0) (t + 4) ⟨0, false⟩ := put_empty hend
  have hft₁ : FTRP (h.put (t + 4) 0) (t + 8) = some t := by
    show (GET_SIZE _ (t + 4)).bind (fun v => some (t + 8 + v - 8)) = _
    rw [hs₁.size]
    rfl
  have hf₂ : HasTag ((h.put (t + 4) 0).put t 0) t ⟨0, false⟩ :=
    put_empty (h := h.put (t + 4) 0) hin
  have hs₂ : HasTag ((h.put (t + 4) 0).put t 0) (t + 4) ⟨0, false⟩ :=
    hs₁.put_other (by omega)
  obtain ⟨-, hnext₂, -⟩ := empty_block hf₂ hs₂ rfl
  have hf₃ := hf₂.put_other (q := t + 4) (v := 1) (by omega)
  have hs₃ : HasTag (((h.put (t + 4) 0).put t 0).put (t + 4) 1) (t + 4)
      epilogue := HasTag.put_same (b := epilogue) hs₂.inside (by decide) (by decide)
  obtain ⟨h', hrun, hbrk'⟩ := coalesce_empty hf₃ hs₃
  refine ⟨h', ?_, hbrk'⟩
  have hsb : mem_sbrk h (toInt 0) = (some h.mem_brk, h) := by
    have := hw.bound
    exact @sbrk_some h 0 (by omega)
  rw [show (0 : Nat) = 0 / WSIZE from rfl, extend_heap_bytes (by omega) (by omega), hsb, hbrk]
  show ((PUT h (t + 4) 0).bind fun h => (FTRP h (t + 8)).bind fun f => PUT h f 0).bind (fun h =>
    (NEXT_BLKP h (t + 8)).bind fun p => (PUT h (HDRP p) 1).bind fun h => coalesce h (t + 8)) = _
  have hin₁ : InHeap (h.put (t + 4) 0) t 4 := hin
  rw [PUT_eq hend, Option.bind_some, hft₁, Option.bind_some, PUT_eq hin₁, Option.bind_some, hnext₂,
    Option.bind_some, show HDRP (t + 8) = t + 4 from rfl, PUT_eq hs₂.inside, Option.bind_some]
  exact hrun

/-- Fewer bytes than asked for: `extend_heap` takes them all the same. -/
theorem extend_heap_cut (hw : WellFormed h bs) (hd : 8 ∣ n) (hlt : n < 2 ^ 64)
    (hc : CutShort h n) :
    ∃ q h', extend_heap h (n / WSIZE) = some (q, h') ∧ q ≠ 0 ∧
      h'.mem_brk = h.mem_brk + n % 2 ^ 32 := by
  obtain ⟨hbig, hpos, hroom⟩ := hc
  rw [extend_heap_mod hd hlt]
  by_cases h0 : n % 2 ^ 32 = 0
  · obtain ⟨h', hrun, hbrk⟩ := extend_heap_zero hw.toTiled
    refine ⟨h.mem_brk, h', ?_, ?_, by rw [h0]; exact hbrk⟩
    · rw [h0]
      exact hrun
    · have := hw.brk
      omega
  · have hwords : n % 2 ^ 32 / WSIZE * 4 = n % 2 ^ 32 := by
      unfold WSIZE
      omega
    rcases extend_heap_served (n % 2 ^ 32 / WSIZE) hw (by unfold WSIZE; omega)
      (by unfold WSIZE; omega) (by omega) with ⟨hno, -⟩ | ⟨l, f, h', -, -, -, hrun, -, hbrk, -, -⟩
    · omega
    · rw [hwords] at hbrk
      exact ⟨h.behind l, h', hrun, behind_pos h l, hbrk⟩

/-- What `norm_malloc` gives out then is not NULL, and the break has not moved far enough. -/
theorem norm_malloc_cut (hw : WellFormed h bs) (hj : JustAt h bs) (hd : 8 ∣ asize)
    (hlt : asize < 2 ^ 64) (hno : ∀ b ∈ bs, ¬ Fits asize b) (hc : CutShort h (lacks bs asize))
    {q : Nat} {h' : Heap} (hrun : norm_malloc h asize = some (q, h')) :
    q ≠ 0 ∧ h'.mem_brk = h.mem_brk + lacks bs asize % 2 ^ 32 := by
  obtain ⟨e, hw', hasks⟩ := norm_malloc_asks hw hj hlt hno
  obtain ⟨hx1, -, hx3⟩ := lacks_of_no_fit hw hd hno
  obtain ⟨p, h₁, hext, hp, hbrk⟩ := extend_heap_cut hw' hx1 (by unfold CHUNKSIZE at hx3; omega) hc
  rw [hasks, hext, Option.bind_some, if_neg hp] at hrun
  obtain ⟨h₂, hplace, hrun⟩ := Option.bind_eq_some_iff.mp hrun
  cases hrun
  exact ⟨hp, (place_brk hplace).trans hbrk⟩

end Cut

/-! ## The law of the search -/

/-- `next_fit` gives NULL when no block fits, and then `end` is at the last block. Otherwise it
gives the first block of the search that fits, and `just` is that block. -/
structure SearchIsRight (h : Heap) (bs : List Block) (asize : Nat) : Prop where
  null_iff : (∃ h', next_fit h asize = some (0, h')) ↔ ∀ b ∈ bs, ¬ Fits asize b
  first : ∀ s b, firstThatFits h bs asize = some (s, b) →
    ∃ e, next_fit h asize = some (s + 4, { h with just := s + 4, end_ := e })
  last : firstThatFits h bs asize = none →
    ∃ l b, bs = l ++ [b] ∧ next_fit h asize = some (0, { h with end_ := h.behind l })

/-- What is lacking is a positive multiple of 8. The heap grows by as many bytes, or it cannot
grow and `norm_malloc` gives NULL. -/
structure GrowsExactly (h : Heap) (bs : List Block) (asize : Nat) : Prop where
  dvd : 8 ∣ lacks bs asize
  pos : 0 < lacks bs asize
  grows : ∃ p h', norm_malloc h asize = some (p, h') ∧
    (p = 0 ∧ h' = { h with end_ := h'.end_ } ∨
      p ≠ 0 ∧ h'.mem_brk = h.mem_brk + lacks bs asize)

section Search

variable {h : Heap} {l bs : List Block} {b : Block} {asize : Nat}

theorem firstThatFits_none : firstThatFits h bs asize = none ↔ ∀ b ∈ bs, ¬ Fits asize b := by
  unfold firstThatFits searchOrder
  rw [List.find?_eq_none]
  constructor
  · intro hno b hb
    obtain ⟨l, r, rfl⟩ := List.append_of_mem hb
    have hmem : (h.base + total l, b) ∈ placed h.base (l ++ b :: r) :=
      mem_placed.mpr ⟨l, r, rfl, rfl⟩
    -- The block is on one of the two sides of `just`.
    have hone := hno (h.base + total l, b) (by
      rcases Nat.lt_or_ge (h.base + total l + 4) h.just with hlt | hge
      · exact List.mem_append_right _ (List.mem_filter.mpr ⟨hmem, decide_eq_true hlt⟩)
      · exact List.mem_append_left _ (List.mem_filter.mpr ⟨hmem, decide_eq_true hge⟩))
    simpa using hone
  · intro hno e he
    have hmem : e ∈ placed h.base bs := by
      rcases List.mem_append.mp he with he | he
      · exact (List.mem_filter.mp he).1
      · exact (List.mem_filter.mp he).1
    obtain ⟨l, r, rfl, -⟩ := mem_placed.mp hmem
    simpa using hno e.2 (by simp)

theorem search_is_right (asize : Nat) (hw : Tiled h bs) (hj : JustAt h bs) :
    SearchIsRight h bs asize := by
  rcases next_fit_order asize hw hj with ⟨l, k, r, e, hbs, hk, hfirst, hfit⟩ | ⟨hno, l, d, hbs, hfit⟩
  · have hyes : ¬ ∀ b ∈ bs, ¬ Fits asize b := by
      intro hno
      exact hno ⟨k, false⟩ (by rw [hbs]; simp) ⟨rfl, hk⟩
    refine ⟨⟨?_, fun hno => absurd hno hyes⟩, ?_, ?_⟩
    · rintro ⟨h', hnull⟩
      rw [hfit, Option.some.injEq, Prod.mk.injEq] at hnull
      exact absurd hnull.1 (behind_pos h l)
    · intro s b hs
      rw [hfirst, Option.some.injEq, Prod.mk.injEq] at hs
      obtain ⟨rfl, -⟩ := hs
      exact ⟨e, hfit⟩
    · intro hs
      rw [hfirst] at hs
      cases hs
  · refine ⟨⟨fun _ => hno, fun _ => ⟨_, hfit⟩⟩, ?_, fun _ => ⟨l, d, hbs, hfit⟩⟩
    intro s b hs
    rw [firstThatFits_none.mpr hno] at hs
    cases hs

/-- A request of no bytes, which a size at the very end of `size_t` is rounded to. It writes
over the footer of the block before. -/
theorem place_nothing {t k : Nat} (hs : HasTag h (t + 4) ⟨k, false⟩) (hin : InHeap h t 4)
    (hk : InHeap h (t + 4) k) (h8 : 8 ≤ k) (hlt : k < MAX_HEAP) :
    ∃ h', place h (t + 8) 0 = some h' := by
  have hs₁ : HasTag (h.put (t + 4) 1) (t + 4) epilogue :=
    HasTag.put_same (b := epilogue) hs.inside (by decide) (by decide)
  have hft₁ : FTRP (h.put (t + 4) 1) (t + 8) = some t := by
    show (GET_SIZE _ (t + 4)).bind (fun v => some (t + 8 + v - 8)) = _
    rw [hs₁.size]
    rfl
  have hin₁ : InHeap (h.put (t + 4) 1) t 4 := hin
  have hs₂ : HasTag ((h.put (t + 4) 1).put t 1) (t + 4) epilogue := hs₁.put_other (by omega)
  have hnext : NEXT_BLKP ((h.put (t + 4) 1).put t 1) (t + 8) = some (t + 8) := by
    show (GET_SIZE _ (t + 4)).bind (fun v => some (t + 8 + v)) = _
    rw [hs₂.size]
    rfl
  have hk₂ : InHeap ((h.put (t + 4) 1).put t 1) (t + 4) k := hk
  have hsub : sub k 0 = k := by
    unfold MAX_HEAP at hlt
    exact sub_eq (Nat.zero_le k) (by omega)
  have hput := put_free hk₂ h8 hs.dvd hlt
  suffices hplace : place h (t + 8) 0 =
      PUT_TAGS ((h.put (t + 4) 1).put t 1) (t + 4 + 4) (PACK k 0) from ⟨_, hplace.trans hput⟩
  unfold place
  rw [show HDRP (t + 8) = t + 4 from rfl, hs.size]
  show (if k > 0 then ((PUT h (t + 4) 1).bind fun h => (FTRP h (t + 8)).bind fun f =>
    PUT h f 1).bind fun h => (NEXT_BLKP h (t + 8)).bind fun p => PUT_TAGS h p (PACK (sub k 0) 0)
    else _) = _
  rw [if_pos (by omega), PUT_eq hs.inside, Option.bind_some, hft₁, Option.bind_some, PUT_eq hin₁,
    Option.bind_some, hnext, Option.bind_some, hsub]

/-- `place` at a free block always ends. -/
theorem place_ends {r : List Block} {k : Nat} (hw : Tiled h (l ++ ⟨k, false⟩ :: r)) (hl : l ≠ [])
    (hd : 8 ∣ asize) : ∃ h', place h (h.behind l) asize = some h' := by
  obtain ⟨h1, h2, h3, h4, h5⟩ := hw.bounds
  simp only at h1 h2 h4 h5
  have hs := hw.header
  have hin : InHeap h (h.base + total l) k := ⟨by omega, by omega⟩
  by_cases hgt : asize < k
  · by_cases h0 : asize = 0
    · subst h0
      have htot : 4 ≤ total l := by
        obtain ⟨b, l, rfl⟩ := List.exists_cons_of_ne_nil hl
        have := Tiled.bounds (l := []) hw |>.1
        simp only [total_cons]
        omega
      obtain ⟨t, ht⟩ : ∃ t, h.base + total l = t + 4 := ⟨h.base + total l - 4, by omega⟩
      have hb : h.behind l = t + 8 := by
        unfold Heap.behind
        rw [ht]
      rw [ht] at hs hin
      rw [hb]
      exact place_nothing hs ⟨by omega, by omega⟩ hin h1 (by omega)
    · exact ⟨_, place_eq hin hs (by omega) hd (by omega) (by omega)⟩
  · have hput := put_used hin h1 h2 (by omega)
    suffices hplace : place h (h.base + total l + 4) asize =
        PUT_TAGS h (h.base + total l + 4) (PACK k 1) from ⟨_, hplace.trans hput⟩
    unfold place
    rw [HDRP_at, hs.size]
    exact if_neg hgt

/-- What is lacking is below 2^31, or `mem_sbrk` refuses. -/
theorem grows_exactly (hw : WellFormed h bs) (hj : JustAt h bs) (hd : 8 ∣ asize)
    (hlt : asize < 2 ^ 64) (hno : ∀ b ∈ bs, ¬ Fits asize b)
    (hc : ¬ CutShort h (lacks bs asize)) : GrowsExactly h bs asize := by
  obtain ⟨e, hw', hasks⟩ := norm_malloc_asks hw hj hlt hno
  obtain ⟨hx1, hx2, hx3⟩ := lacks_of_no_fit hw hd hno
  have hx4 : lacks bs asize < 2 ^ 64 := by
    unfold CHUNKSIZE at hx3
    omega
  refine ⟨hx1, hx2, ?_⟩
  rw [hasks]
  generalize lacks bs asize = ext at hc hx1 hx2 hx4 ⊢
  have hrefused : extend_heap { h with end_ := e } (ext / WSIZE) = some (0, { h with end_ := e }) →
      ∃ p h', ((extend_heap { h with end_ := e } (ext / WSIZE)).bind fun w =>
        if w.1 = 0 then some (0, w.2) else
        (place w.2 w.1 asize).bind fun h => some (w.1, h)) = some (p, h') ∧
      (p = 0 ∧ h' = { h with end_ := h'.end_ } ∨ p ≠ 0 ∧ h'.mem_brk = h.mem_brk + ext) := by
    intro hr
    rw [hr]
    exact ⟨0, _, rfl, Or.inl ⟨rfl, rfl⟩⟩
  by_cases hgrant : ext % 2 ^ 32 < 2 ^ 31 ∧
      h.mem_brk + ext % 2 ^ 32 ≤ h.mem_start_brk + MAX_HEAP
  · have hsmall : ext < 2 ^ 31 := by
      by_contra hge
      exact hc ⟨by omega, hgrant.1, hgrant.2⟩
    have hwords : ext / WSIZE * 4 = ext := by
      unfold WSIZE
      omega
    rcases extend_heap_served (ext / WSIZE) hw' (by unfold WSIZE; omega)
      (by unfold WSIZE; omega) (by omega) with
      ⟨-, hr⟩ | ⟨l', f, h₁, hlf, -, -, hrun, hb, hbrk, hs, -⟩
    · exact hrefused hr
    · have hbe : Heap.behind { h with end_ := e } l' = h₁.behind l' := by
        show Heap.base _ + total l' + 4 = h₁.base + total l' + 4
        rw [hb]
      have hne : l' ≠ [] := by
        rintro rfl
        have hf := hs.wf.first
        simp [prologue] at hf
      obtain ⟨h', hplace⟩ := place_ends hs.wf.toTiled hne hd
      rw [hwords] at hbrk
      refine ⟨_, h', ?_, Or.inr ⟨behind_pos h₁ l', (place_brk hplace).trans hbrk⟩⟩
      rw [hrun, Option.bind_some, if_neg (behind_pos _ l'), hbe, hplace]
      rfl
  · exact hrefused (extend_heap_refuses hx1 hx4 hgrant)

/-- A search and a growth as they should be, for every request of a multiple of 8. -/
def SearchAndGrowth (h : Heap) (bs : List Block) (asize : Nat) : Prop :=
  SearchIsRight h bs asize ∧
    (8 ∣ asize → (∀ b ∈ bs, ¬ Fits asize b) → GrowsExactly h bs asize)

/-- A growth that is cut short is not exact. -/
theorem not_grows_of_cut (hw : WellFormed h bs) (hj : JustAt h bs) (hd : 8 ∣ asize)
    (hlt : asize < 2 ^ 64) (hno : ∀ b ∈ bs, ¬ Fits asize b) (hc : CutShort h (lacks bs asize)) :
    ¬ GrowsExactly h bs asize := by
  rintro ⟨-, -, p, h', hrun, hout⟩
  obtain ⟨hp, hbrk⟩ := norm_malloc_cut hw hj hd hlt hno hc hrun
  rcases hout with ⟨rfl, -⟩ | ⟨-, hbrk'⟩
  · exact hp rfl
  · have hbig := hc.1
    omega

end Search

/-- From a well-formed heap with `just` at a block the search ends, finds the first block in
its order that fits, and leaves `end` at the last block when there is none. The heap then
grows by what is lacking exactly when that is not cut short. -/
theorem the_growth_is_exact_iff {h : Heap} {bs : List Block} (hw : WellFormed h bs)
    (hj : JustAt h bs) {asize : Nat} (hlt : asize < 2 ^ 64) :
    SearchAndGrowth h bs asize ↔
      (8 ∣ asize → (∀ b ∈ bs, ¬ Fits asize b) → ¬ CutShort h (lacks bs asize)) := by
  constructor
  · rintro ⟨-, hgrow⟩ hd hno hc
    exact not_grows_of_cut hw hj hd hlt hno hc (hgrow hd hno)
  · intro hok
    exact ⟨search_is_right asize hw.toTiled hj,
      fun hd hno => grows_exactly hw hj hd hlt hno (hok hd hno)⟩

theorem a_small_growth_is_exact :
    SearchAndGrowth oneBlock [prologue, ⟨24, true⟩] 16 ↔
      (8 ∣ 16 → (∀ b ∈ [prologue, ⟨24, true⟩], ¬ Fits 16 b) →
        ¬ CutShort oneBlock (lacks [prologue, ⟨24, true⟩] 16)) :=
  the_growth_is_exact_iff oneBlock_wellFormed oneBlock_just (by decide)

/-- 2^32 + 4096 bytes are lacking, and 4096 bytes are given. -/
theorem oneBlock_cut : CutShort oneBlock (lacks [prologue, ⟨24, true⟩] (2 ^ 32 + 4096)) := by
  have hl : lacks [prologue, ⟨24, true⟩] (2 ^ 32 + 4096) = 2 ^ 32 + 4096 := by decide
  rw [hl]
  refine ⟨by decide, by decide, ?_⟩
  show 48 + 4096 ≤ 8 + MAX_HEAP
  unfold MAX_HEAP
  omega

theorem the_heap_grows_too_little : ¬ ∀ (h : Heap) (bs : List Block) (asize : Nat),
    WellFormed h bs → JustAt h bs → asize < 2 ^ 64 → SearchAndGrowth h bs asize := by
  intro hall
  obtain ⟨-, hgrow⟩ := hall oneBlock [prologue, ⟨24, true⟩] (2 ^ 32 + 4096) oneBlock_wellFormed
    oneBlock_just (by decide)
  have hno : ∀ b ∈ [prologue, ⟨24, true⟩], ¬ Fits (2 ^ 32 + 4096) b := by decide
  exact not_grows_of_cut oneBlock_wellFormed oneBlock_just (by decide) (by decide) hno oneBlock_cut
    (hgrow (by decide) hno)

/-! ## The law of the sizes -/

/-- The request ended with NULL or with a block that has room for `size` bytes, and the heap
is well formed. -/
def Met (size : Nat) (r : Option (Nat × Heap)) : Prop :=
  ∃ q h' bs, r = some (q, h') ∧ WellFormed h' bs ∧ (q = 0 ∨ ∃ n, Live h' bs q n ∧ size ≤ n - 8)

/-- What `mm_malloc` can serve or refuse. A size at the very end of `size_t` is rounded to 0
or 8, and is refused only when the heap has neither a free block nor room for a chunk. -/
def Servable (h : Heap) (bs : List Block) (size : Nat) : Prop :=
  if size < 2 ^ 64 - 15 then
    (∃ b ∈ bs, Fits (roundUp size) b) ∨ ¬ CutShort h (lacks bs (roundUp size))
  else (∀ b ∈ bs, b.used = true) ∧ h.mem_start_brk + MAX_HEAP < h.mem_brk + CHUNKSIZE

/-- The same for a request. `mm_realloc` takes a size that is rounded to 0 or 8 for a smaller
one. -/
def CanServe (h : Heap) (bs : List Block) : Call → Prop
  | .malloc size => Servable h bs size
  | .free _ => True
  | .realloc _ size => size < 2 ^ 64 - 15 ∧ Servable h bs size

section Sizes

variable {h : Heap} {bs : List Block} {size : Nat}

/-- Nothing but NULL can be the answer to a request that is larger than the heap. -/
theorem not_met_of_large (hbig : MAX_HEAP ≤ size) {r : Option (Nat × Heap)}
    (hr : ∀ q h', r = some (q, h') → q ≠ 0) : ¬ Met size r := by
  rintro ⟨q, h', bs', hq, hw, hout⟩
  rcases hout with rfl | ⟨n, ⟨l, r', rfl, -, -⟩, hn⟩
  · exact hr 0 h' hq rfl
  · have hlt := hw.toTiled.total_lt
    simp only [total_append, total_cons] at hlt
    omega

theorem roundUp_wraps (h1 : 2 ^ 64 - 15 ≤ size) (h2 : size < 2 ^ 64) : roundUp size ≤ 8 := by
  unfold roundUp add64 DSIZE
  omega

/-- What is cut short is larger than the heap. -/
theorem large_of_cut {asize : Nat} (hw : WellFormed h bs) (hd : 8 ∣ asize)
    (hno : ¬((∃ b ∈ bs, Fits asize b) ∨ ¬ CutShort h (lacks bs asize))) : 2 ^ 32 ≤ asize := by
  by_contra hlt
  exact hno (not_cut_of_small hw hd (by omega))

/-- `norm_malloc` gives no NULL when a block fits. -/
theorem norm_malloc_of_fit {asize : Nat} (hw : WellFormed h bs) (hj : JustAt h bs)
    (hfit : ∃ b ∈ bs, Fits asize b) {q : Nat} {h' : Heap}
    (hrun : norm_malloc h asize = some (q, h')) : q ≠ 0 := by
  rcases next_fit_spec asize hw.toTiled hj with
    ⟨l, k, r, e, rfl, -, hfound⟩ | ⟨hno, -⟩
  · rw [norm_malloc_fit hfound] at hrun
    obtain ⟨h₁, -, hrun⟩ := Option.bind_eq_some_iff.mp hrun
    cases hrun
    exact behind_pos h l
  · obtain ⟨b, hb, hyes⟩ := hfit
    exact absurd hyes (hno b hb)

/-- Nor when `mem_sbrk` gives what is lacking. -/
theorem norm_malloc_of_room {asize : Nat} (hw : WellFormed h bs) (hj : JustAt h bs)
    (hd : 8 ∣ asize) (hlt : asize < 2 ^ 64) (hno : ∀ b ∈ bs, ¬ Fits asize b)
    (hsmall : lacks bs asize < 2 ^ 31)
    (hroom : h.mem_brk + lacks bs asize ≤ h.mem_start_brk + MAX_HEAP) {q : Nat} {h' : Heap}
    (hrun : norm_malloc h asize = some (q, h')) : q ≠ 0 := by
  obtain ⟨e, hw', hasks⟩ := norm_malloc_asks hw hj hlt hno
  obtain ⟨hx1, hx2, -⟩ := lacks_of_no_fit hw hd hno
  rw [hasks] at hrun
  generalize lacks bs asize = ext at hsmall hroom hx1 hx2 hrun
  have hwords : ext / WSIZE * 4 = ext := by
    unfold WSIZE
    omega
  rcases extend_heap_served (ext / WSIZE) hw' (by unfold WSIZE; omega)
    (by unfold WSIZE; omega) (by omega) with
    ⟨hfull, -⟩ | ⟨l', f, h₁, -, -, -, hext, -⟩
  · rw [hwords] at hfull
    exact absurd hfull (Nat.not_lt.mpr hroom)
  · rw [hext, Option.bind_some, if_neg (behind_pos _ l')] at hrun
    obtain ⟨h₂, -, hrun⟩ := Option.bind_eq_some_iff.mp hrun
    cases hrun
    exact behind_pos _ l'

theorem met_of_granted {h' : Heap} {bs' : List Block} {gone : Nat → Prop} {q : Nat}
    (hw : WellFormed h bs) (hg : Granted h h' bs bs' gone q (roundUp size))
    (hgone : ¬ gone (h.behind [])) (hs : size < 2 ^ 64 - 15) : Met size (some (q, h')) := by
  obtain ⟨k, hk, hq⟩ := hg.live_at hw hgone
  have hr := (roundUp_spec hs).1
  exact ⟨q, h', bs', rfl, hg.wf, Or.inr ⟨k, hq, by omega⟩⟩

theorem met_of_null (hw : WellFormed h bs) (e : Nat) :
    Met size (some (0, { h with end_ := e })) :=
  ⟨0, _, bs, rfl, hw.cursors h.just e, Or.inl rfl⟩

theorem malloc_met_iff (hw : WellFormed h bs) (hj : JustAt h bs) (hs : 0 < size)
    (hlt : size < 2 ^ 64) : Met size (norm_malloc h (roundUp size)) ↔ Servable h bs size := by
  have hd := roundUp_dvd size
  unfold Servable
  split
  · rename_i hs
    obtain ⟨h1, h2⟩ := roundUp_spec hs
    constructor
    · intro hm
      by_contra hno
      have hbig := large_of_cut hw hd hno
      push Not at hno
      refine not_met_of_large ?_ ?_ hm
      · unfold MAX_HEAP
        omega
      · intro q h' hrun
        exact (norm_malloc_cut hw hj hd (by omega) hno.1 hno.2 hrun).1
    · intro hok
      rcases norm_malloc_any hw hj (by omega) hd (by omega) hok with
        ⟨e, hrun⟩ | ⟨q, h', bs', hrun, -, hg, -⟩
      · rw [hrun]
        exact met_of_null hw e
      · rw [hrun]
        exact met_of_granted hw hg (by simp) hs
  · rename_i hge
    have h8 := roundUp_wraps (by omega) hlt
    have hbig : MAX_HEAP ≤ size := by
      unfold MAX_HEAP
      omega
    have hchunk : (∀ b ∈ bs, b.used = true) → lacks bs (roundUp size) = CHUNKSIZE := by
      intro hu
      obtain ⟨l, b, rfl⟩ := List.eq_nil_or_concat' bs |>.resolve_left (by
        rintro rfl
        simpa using hw.first)
      rw [lacks_snoc, hu b (by simp)]
      unfold CHUNKSIZE
      simp only [Bool.true_eq_false, if_false]
      omega
    have hnofit : (∀ b ∈ bs, b.used = true) → ∀ b ∈ bs, ¬ Fits (roundUp size) b := by
      rintro hu b hb ⟨hfree, -⟩
      rw [hu b hb] at hfree
      cases hfree
    constructor
    · intro hm
      by_contra hno
      refine not_met_of_large hbig (fun q h' hrun => ?_) hm
      by_cases hu : ∀ b ∈ bs, b.used = true
      · have hroom : h.mem_brk + CHUNKSIZE ≤ h.mem_start_brk + MAX_HEAP := by
          by_contra hfull
          exact hno ⟨hu, by omega⟩
        refine norm_malloc_of_room hw hj hd (by omega) (hnofit hu) ?_ ?_ hrun
        · rw [hchunk hu]
          decide
        · rw [hchunk hu]
          exact hroom
      · push Not at hu
        obtain ⟨b, hb, hfree⟩ := hu
        refine norm_malloc_of_fit hw hj ⟨b, hb, by simpa using hfree, ?_⟩ hrun
        obtain ⟨l, r, rfl⟩ := List.append_of_mem hb
        have := hw.toTiled.bounds.1
        omega
    · rintro ⟨hu, hfull⟩
      obtain ⟨e, hrun⟩ := norm_malloc_null hw hj hd (by omega) (hnofit hu) (by
        rw [hchunk hu]
        rintro ⟨-, hroom⟩
        have hc : CHUNKSIZE % 2 ^ 32 = CHUNKSIZE := rfl
        rw [hc] at hroom
        omega)
      rw [hrun]
      exact met_of_null hw e

/-- A block that is made smaller stays where it is. -/
theorem shrink_stays {p old asize q : Nat} {h' : Heap}
    (hrun : shrink h p old asize = some (q, h')) : q = p := by
  obtain ⟨f, -, hrun⟩ := Option.bind_eq_some_iff.mp hrun
  obtain ⟨h₁, -, hrun⟩ := Option.bind_eq_some_iff.mp hrun
  obtain ⟨h₂, -, hrun⟩ := Option.bind_eq_some_iff.mp hrun
  obtain ⟨next, -, hrun⟩ := Option.bind_eq_some_iff.mp hrun
  obtain ⟨h₃, -, hrun⟩ := Option.bind_eq_some_iff.mp hrun
  obtain ⟨v, -, hrun⟩ := Option.bind_eq_some_iff.mp hrun
  cases hrun
  rfl

/-- A block that is moved goes where `mm_malloc` says. -/
theorem norm_realloc_goes {p old q : Nat} {h' : Heap}
    (hrun : norm_realloc h p size old = some (q, h')) :
    ∃ h₁, mm_malloc h size = some (q, h₁) := by
  obtain ⟨⟨bp, h₁⟩, hm, hrun⟩ := Option.bind_eq_some_iff.mp hrun
  by_cases h0 : bp = 0
  · simp only [h0, if_true] at hrun hm
    cases hrun
    exact ⟨_, hm⟩
  · simp only [h0, if_false] at hrun
    obtain ⟨h₂, -, hrun⟩ := Option.bind_eq_some_iff.mp hrun
    obtain ⟨h₃, -, hrun⟩ := Option.bind_eq_some_iff.mp hrun
    cases hrun
    exact ⟨h₁, hm⟩

/-- A request that is cut short is too large to grow in place, and the block that it is moved
to has no room for it. -/
theorem realloc_cut {p old : Nat} (hw : WellFormed h bs) (hj : JustAt h bs) (hT : h.TR = 0)
    (hf : h.fmalloc = false) (hp : Live h bs p old) (hsize : size < 2 ^ 64 - 15)
    (hno : ¬ Servable h bs size) : ¬ Met size (mm_realloc h p size) := by
  have hd := roundUp_dvd size
  obtain ⟨h1, h2⟩ := roundUp_spec hsize
  unfold Servable at hno
  rw [if_pos hsize] at hno
  have hbig := large_of_cut hw hd hno
  push Not at hno
  have hs : size ≠ 0 := by omega
  have hold : old < MAX_HEAP := by
    obtain ⟨l, r, rfl, -, -⟩ := hp
    obtain ⟨-, -, -, -, h5⟩ := hw.toTiled.bounds
    simp only at h5
    omega
  unfold MAX_HEAP at hold
  rw [mm_realloc_eq hw hp hs, if_neg (by omega), if_neg (by omega)]
  rcases grow_spec size hw hp (by omega) (by omega) hd (by omega) (by omega) with
    ⟨q, t, h', bs', -, -, -, hg⟩ | ⟨-, hrun⟩
  · -- The grown block is inside the heap.
    obtain ⟨l, r, k, rfl, hk, -⟩ := hg.granted.block_at
    have hbd := hg.granted.wf.toTiled.total_lt
    simp only [total_append, total_cons] at hbd
    unfold MAX_HEAP at hbd
    omega
  · rw [hrun]
    refine not_met_of_large (by unfold MAX_HEAP; omega) fun q h' hr => ?_
    obtain ⟨h₁, hm⟩ := norm_realloc_goes hr
    rw [mm_malloc_general hT hf hs] at hm
    exact (norm_malloc_cut hw hj hd (by omega) hno.1 hno.2 hm).1

theorem realloc_met_iff {p old : Nat} (hw : WellFormed h bs) (hj : JustAt h bs) (hT : h.TR = 0)
    (hf : h.fmalloc = false) (hp : Live h bs p old) (hs : 0 < size) (hlt : size < 2 ^ 64) :
    Met size (mm_realloc h p size) ↔ size < 2 ^ 64 - 15 ∧ Servable h bs size := by
  obtain ⟨hp0, hpne⟩ : p ≠ 0 ∧ p ≠ h.behind [] := by
    refine ⟨?_, ((live_iff hw.toTiled).mp hp).2⟩
    obtain ⟨l, -, -, -, rfl⟩ := hp
    exact behind_pos h l
  by_cases hsize : size < 2 ^ 64 - 15
  · constructor
    · intro hm
      refine ⟨hsize, ?_⟩
      by_contra hno
      exact realloc_cut hw hj hT hf hp hsize hno hm
    · rintro ⟨-, hok⟩
      unfold Servable at hok
      rw [if_pos hsize] at hok
      rcases mm_realloc_spec hw hj hT hf hp (by omega) ⟨hsize, hok⟩ with
        ⟨e, hrun⟩ | ⟨q, h', bs', hrun, -, hg, -⟩
      · rw [hrun]
        exact met_of_null hw e
      · rw [hrun]
        exact met_of_granted hw hg (fun he => hpne he.symm) hsize
  · -- The size is taken for a smaller one, and the block stays.
    have h8 := roundUp_wraps (by omega) hlt
    have hold : 8 ≤ old := by
      obtain ⟨l, r, rfl, -, -⟩ := hp
      exact hw.toTiled.bounds.1
    refine ⟨fun hm => ?_, fun hok => absurd hok.1 hsize⟩
    refine absurd hm (not_met_of_large (by unfold MAX_HEAP; omega) fun q h' hr => ?_)
    rw [mm_realloc_eq hw hp (by omega)] at hr
    by_cases heq : roundUp size = old
    · rw [if_pos heq] at hr
      cases hr
      exact hp0
    · rw [if_neg heq, if_pos (by omega)] at hr
      rw [shrink_stays hr]
      exact hp0

end Sizes

/-- From a well-formed heap in general mode with `just` at a block, a request of any size
ends with NULL or with a block that has room for it, in a well-formed heap, exactly when what
is lacking is not cut short and the size does not wrap round to a smaller one. -/
theorem a_request_is_met_iff {h : Heap} {bs : List Block} (hw : WellFormed h bs)
    (hj : JustAt h bs) (hT : h.TR = 0) (hf : h.fmalloc = false) (c : Call)
    (hlive : ∀ p, c.names p → ∃ n, Live h bs p n) (hs : 0 < c.size) (hlt : c.size < 2 ^ 64) :
    Met c.size (perform h c) ↔ CanServe h bs c := by
  cases c with
  | malloc size =>
    show Met size (mm_malloc h size) ↔ Servable h bs size
    have hs : 0 < size := hs
    rw [mm_malloc_general hT hf (by omega)]
    exact malloc_met_iff hw hj hs hlt
  | free ptr => exact absurd hs (Nat.lt_irrefl 0)
  | realloc ptr size =>
    obtain ⟨old, hp⟩ := hlive ptr rfl
    exact realloc_met_iff hw hj hT hf hp hs hlt

theorem a_growing_block_is_met_iff :
    Met 100 (perform oneBlock (.realloc 24 100)) ↔
      CanServe oneBlock [prologue, ⟨24, true⟩] (.realloc 24 100) := by
  refine a_request_is_met_iff oneBlock_wellFormed oneBlock_just rfl rfl (.realloc 24 100) ?_
    (by decide) (by decide)
  rintro p rfl
  exact ⟨24, oneBlock_live⟩

/-- 2^32 + 4088 bytes are asked for, and the heap grows by 4096 bytes. -/
theorem a_huge_request_gets_a_small_block : ¬ ∀ (h : Heap) (bs : List Block) (size : Nat),
    WellFormed h bs → JustAt h bs → h.TR = 0 → h.fmalloc = false → 0 < size → size < 2 ^ 64 →
      Met size (mm_malloc h size) := by
  intro hall
  refine @not_met_of_large (2 ^ 32 + 4088) (by decide) _ ?_ (hall oneBlock _ (2 ^ 32 + 4088)
    oneBlock_wellFormed oneBlock_just rfl rfl (by decide) (by decide))
  have hno : ∀ b ∈ [prologue, ⟨24, true⟩], ¬ Fits (2 ^ 32 + 4096) b := by decide
  have hround : roundUp (2 ^ 32 + 4088) = 2 ^ 32 + 4096 := by decide
  intro q h' hrun
  rw [mm_malloc_general rfl rfl (by decide), hround] at hrun
  exact (norm_malloc_cut oneBlock_wellFormed oneBlock_just (by decide) (by decide) hno oneBlock_cut
    hrun).1

end ics_labs.mm
