-- What the functions of mm.c below the requests do on a tiled heap: coalescing,
-- placing, growing the heap, and the two fits.
import IcsLabs.MmTiles

open ics_labs.byte_words ics_labs.boundary_tags

namespace ics_labs.mm

/-- The block at the split goes to the left row. -/
theorem Tiled.shift {h : Heap} {l r : List Block} {b : Block} (hw : Tiled h (l ++ b :: r)) :
    Tiled h ((l ++ [b]) ++ r) := by
  rw [List.append_assoc]
  exact hw

theorem base_snoc (h : Heap) (l : List Block) (b : Block) :
    h.base + total (l ++ [b]) = h.base + total l + b.size := by
  simp [Nat.add_assoc]

/-! ## Coalescing -/

section Merge

variable {h : Heap} {l r : List Block} {x y : Block} {n : Nat}

/-- A block tagged anew over a stretch inside the heap. -/
theorem stands_free {c : Contents} {s N : Nat} (h8 : 8 ≤ N) (hd : 8 ∣ N) (hlt : N < MAX_HEAP) :
    Stands (tagged c s ⟨N, false⟩) s ⟨N, false⟩ := by
  apply stands_tagged c s h8 hd
  simp only [Block.tag, Bool.toNat_false]
  unfold MAX_HEAP at hlt
  omega

/-- The next block is taken up. -/
theorem merge_next (hw : Tiled h (l ++ ⟨n, false⟩ :: y :: r)) :
    merge h (h.behind l) 1 0 n = some (h.behind l,
      { h with contents := tagged h.contents (h.base + total l) ⟨n + y.size, false⟩ }) := by
  obtain ⟨h1, h2, h3, h4, h5⟩ := hw.bounds
  simp only [total_cons] at h1 h2 h4 h5
  have hs := hw.header
  have hy := hw.shift.header
  obtain ⟨h6, h7, -⟩ := hw.shift.bounds
  rw [base_snoc] at hy
  unfold MAX_HEAP at h5
  unfold merge Heap.behind
  rw [if_pos ⟨by decide, rfl⟩, NEXT_BLKP_at hs]
  show ((GET_SIZE h (h.base + total l + n)).bind fun v => (PUT_TAGS h _ (PACK (add64 n v) 0)).bind
    fun h => some (_, h)) = _
  rw [hy.size, Option.bind_some, add64_eq (by omega), pack_free (Nat.dvd_add h2 h7),
    PUT_TAGS_eq (b := ⟨n + y.size, false⟩) ⟨by omega, by simp only; omega⟩ (by simp only; omega)
      (Nat.dvd_add h2 h7) (by simp only [Block.tag, Bool.toNat_false]; omega) rfl]
  rfl

/-- The block before is the one that grows. -/
theorem merge_prev (hw : Tiled h (l ++ x :: ⟨n, false⟩ :: r)) :
    merge h (h.behind (l ++ [x])) 0 1 n = some (h.behind l,
      { h with contents := tagged h.contents (h.base + total l) ⟨x.size + n, false⟩ }) := by
  obtain ⟨h1, h2, h3, h4, h5⟩ := hw.bounds
  simp only [total_cons] at h4 h5
  have hx := hw.header
  have hf := hw.footer
  have hs := hw.shift.header
  obtain ⟨h6, h7, -⟩ := hw.shift.bounds
  rw [base_snoc] at hs
  generalize ht : h.base + total l = t at *
  unfold MAX_HEAP at h5
  simp only at h6 h7
  have hb : h.behind (l ++ [x]) = t + x.size + 4 := by
    unfold Heap.behind
    rw [base_snoc, ht]
  have hd : 8 ∣ x.size + n := Nat.dvd_add h2 h7
  have htag : (Block.mk (x.size + n) false).tag < 2 ^ 32 := by
    simp only [Block.tag, Bool.toNat_false]
    omega
  unfold merge
  rw [hb, if_neg (by omega), if_pos ⟨rfl, by decide⟩, PREV_BLKP_at hf h1]
  show ((GET_SIZE h t).bind fun v => (FTRP h (t + x.size + 4)).bind fun f => (PUT h f
    (PACK (add64 n v) 0)).bind fun h => (PREV_BLKP h (t + x.size + 4)).bind fun p => (PUT h (HDRP p)
    (PACK (add64 n v) 0)).bind fun h => (PREV_BLKP h (t + x.size + 4)).bind fun p => some (p, h)) = _
  rw [hx.size, Option.bind_some, add64_eq (by omega), Nat.add_comm n, pack_free hd,
    FTRP_at hs h6, Option.bind_some, PUT_eq ⟨by omega, by simp only; omega⟩, Option.bind_some]
  have hf' := hf.put_other (q := t + x.size + n - 4) (v := (Block.mk (x.size + n) false).tag)
    (by omega)
  rw [PREV_BLKP_at hf' h1, Option.bind_some, HDRP_at,
    PUT_eq ⟨by simp only [put_mem_start_brk]; omega, by simp only [put_mem_brk]; omega⟩,
    Option.bind_some]
  have hf'' := hf'.put_other (q := t) (v := (Block.mk (x.size + n) false).tag) (by omega)
  rw [PREV_BLKP_at hf'' h1, Option.bind_some]
  have he := tagged_eq h.contents t (b := ⟨x.size + n, false⟩) (by simp only; omega)
  simp only [Heap.put, Heap.behind, ht, ← he, Nat.add_assoc]

/-- Both neighbours go. -/
theorem merge_both (hw : Tiled h (l ++ x :: ⟨n, false⟩ :: y :: r)) :
    merge h (h.behind (l ++ [x])) 0 0 n = some (h.behind l,
      { h with contents := tagged h.contents (h.base + total l) ⟨x.size + n + y.size, false⟩ }) := by
  obtain ⟨h1, h2, h3, h4, h5⟩ := hw.bounds
  simp only [total_cons] at h4 h5
  have hx := hw.header
  have hf := hw.footer
  have hs := hw.shift.header
  obtain ⟨h6, h7, -⟩ := hw.shift.bounds
  rw [base_snoc] at hs
  have hy := hw.shift.shift.header
  have hyf := hw.shift.shift.footer
  obtain ⟨h8, h9, -⟩ := hw.shift.shift.bounds
  rw [base_snoc, base_snoc] at hy hyf
  generalize ht : h.base + total l = t at *
  unfold MAX_HEAP at h5
  simp only at h6 h7
  have hb : h.behind (l ++ [x]) = t + x.size + 4 := by
    unfold Heap.behind
    rw [base_snoc, ht]
  have hd : 8 ∣ x.size + n + y.size := Nat.dvd_add (Nat.dvd_add h2 h7) h9
  unfold merge
  rw [hb, if_neg (by omega), if_neg (by omega), PREV_BLKP_at hf h1, NEXT_BLKP_at hs]
  show ((GET_SIZE h t).bind fun v => (FTRP h (t + x.size + n + 4)).bind fun f => (GET_SIZE h
    f).bind fun w => (PUT h t (PACK (add64 n ((v + w) % 2 ^ 32)) 0)).bind fun h => (NEXT_BLKP h
    (t + x.size + 4)).bind fun p => (FTRP h p).bind fun f => (PUT h f (PACK (add64 n
    ((v + w) % 2 ^ 32)) 0)).bind fun h => (PREV_BLKP h (t + x.size + 4)).bind fun p =>
    some (p, h)) = _
  rw [hx.size, Option.bind_some, FTRP_at hy h8, Option.bind_some, hyf.size, Option.bind_some,
    Nat.mod_eq_of_lt (by omega), add64_eq (by omega),
    show n + (x.size + y.size) = x.size + n + y.size by omega, pack_free hd,
    PUT_eq ⟨by omega, by omega⟩, Option.bind_some]
  have hs' := hs.put_other (q := t) (v := (Block.mk (x.size + n + y.size) false).tag) (by omega)
  have hy' := hy.put_other (q := t) (v := (Block.mk (x.size + n + y.size) false).tag) (by omega)
  have hf' := hf.put_other (q := t) (v := (Block.mk (x.size + n + y.size) false).tag) (by omega)
  rw [NEXT_BLKP_at hs', Option.bind_some, FTRP_at hy' h8, Option.bind_some,
    PUT_eq ⟨by simp only [put_mem_start_brk]; omega, by simp only [put_mem_brk]; omega⟩,
    Option.bind_some]
  have hf'' := hf'.put_other (q := t + x.size + n + y.size - 4)
    (v := (Block.mk (x.size + n + y.size) false).tag) (by omega)
  rw [PREV_BLKP_at hf'' h1, Option.bind_some]
  simp only [Heap.put, Heap.behind, ht, tagged, ← Nat.add_assoc]

/-- What `coalesce` makes of a ladder's result: `just` may move to the block. -/
theorem coalesce_of_merge (hw : Tiled h (l ++ x :: ⟨n, false⟩ :: r)) {q N : Nat} {h' : Heap}
    (hu : ¬ (x.used = true ∧ (r.headD epilogue).used = true))
    (hm : merge h (h.behind (l ++ [x])) x.used.toNat (r.headD epilogue).used.toNat n =
      some (q + 4, h')) (hq : HasTag h' q ⟨N, false⟩) :
    ∃ j, coalesce h (h.behind (l ++ [x])) = some (q + 4, { h' with just := j }) ∧
      (j = q + 4 ∨ j = h'.just ∧ (h'.just ≤ q + 4 ∨ q + 4 + N ≤ h'.just)) := by
  obtain ⟨h1, -⟩ := hw.bounds
  have hx := hw.header
  have hf := hw.footer
  have hs := hw.shift.header
  have hy := hw.shift.shift.next_header
  rw [base_snoc] at hs
  rw [base_snoc, base_snoc] at hy
  have hb : h.behind (l ++ [x]) = h.base + total l + x.size + 4 := by
    unfold Heap.behind
    rw [base_snoc]
  have hcond : ¬ (x.used.toNat ≠ 0 ∧ (r.headD epilogue).used.toNat ≠ 0) := by
    simpa using hu
  unfold coalesce
  rw [hb] at hm ⊢
  rw [PREV_BLKP_at hf h1, NEXT_BLKP_at hs]
  show ∃ j, (((FTRP h (h.base + total l + 4)).bind fun f => (GET_ALLOC h f).bind fun pa =>
    (GET_ALLOC h (h.base + total l + x.size + n)).bind fun na =>
    (GET_SIZE h (h.base + total l + x.size)).bind fun size =>
    if pa ≠ 0 ∧ na ≠ 0 then some (h.base + total l + x.size + 4, h) else
    (merge h (h.base + total l + x.size + 4) pa na size).bind fun b =>
    if b.1 < b.2.just then (NEXT_BLKP b.2 b.1).bind fun nx =>
      if b.2.just < nx then some (b.1, { b.2 with just := b.1 }) else some (b.1, b.2)
    else some (b.1, b.2)) = _) ∧ _
  rw [FTRP_at hx h1, Option.bind_some, hf.alloc, Option.bind_some, hy.alloc, Option.bind_some,
    hs.size, Option.bind_some, if_neg hcond, hm, Option.bind_some, NEXT_BLKP_at hq,
    Option.bind_some]
  split
  · split
    · exact ⟨q + 4, rfl, Or.inl rfl⟩
    · rename_i hlt
      have hle : q + N + 4 ≤ h'.just := Nat.le_of_not_lt hlt
      exact ⟨h'.just, rfl, Or.inr ⟨rfl, Or.inr (by omega)⟩⟩
  · rename_i hlt
    exact ⟨h'.just, rfl, Or.inr ⟨rfl, Or.inl (Nat.le_of_not_lt hlt)⟩⟩

/-- Between two used blocks nothing happens. -/
theorem coalesce_alone (hw : Tiled h (l ++ x :: ⟨n, false⟩ :: r)) (hx : x.used = true)
    (hy : (r.headD epilogue).used = true) :
    coalesce h (h.behind (l ++ [x])) = some (h.behind (l ++ [x]), h) := by
  obtain ⟨h1, -⟩ := hw.bounds
  have hf := hw.footer
  have hs := hw.shift.header
  have ht := hw.shift.shift.next_header
  rw [base_snoc] at hs
  rw [base_snoc, base_snoc] at ht
  have hb : h.behind (l ++ [x]) = h.base + total l + x.size + 4 := by
    unfold Heap.behind
    rw [base_snoc]
  unfold coalesce
  rw [hb, PREV_BLKP_at hf h1, NEXT_BLKP_at hs]
  show ((FTRP h (h.base + total l + 4)).bind fun f => (GET_ALLOC h f).bind fun pa =>
    (GET_ALLOC h (h.base + total l + x.size + n)).bind fun na =>
    (GET_SIZE h (h.base + total l + x.size)).bind fun size =>
    if pa ≠ 0 ∧ na ≠ 0 then some (h.base + total l + x.size + 4, h) else _) = _
  rw [FTRP_at hw.header h1, Option.bind_some, hf.alloc, Option.bind_some, ht.alloc,
    Option.bind_some, hs.size, Option.bind_some, if_pos (by rw [hx, hy]; decide)]

/-- What a block is retagged to after its neighbours went into it. -/
structure Coalesced (h h' : Heap) (l r : List Block) (n : Nat) (l' f g r' : List Block) :
    Prop where
  absorbs : Absorbs l r l' f g r'
  nonempty : l' ≠ []
  runs : coalesce h (h.behind l) = some (h.behind l', h')
  edits : Edits h h' (h.base + total l') (total f + n + total g)
  stands : Stands h'.contents (h.base + total l') ⟨total f + n + total g, false⟩
  just : h'.just = h.behind l' ∨ h'.just = h.just ∧ ((f = [] ∧ g = []) ∨
    h.just ≤ h.behind l' ∨ h.behind l' + (total f + n + total g) ≤ h.just)

/-- A merged block stands, and only its own bytes are written. -/
theorem coalesced_of_merge (hw : Tiled h (l ++ x :: ⟨n, false⟩ :: r)) {l' f g r' : List Block}
    (ha : Absorbs (l ++ [x]) r l' f g r') (hne : l' ≠ [])
    (hu : ¬ (x.used = true ∧ (r.headD epilogue).used = true))
    (hm : merge h (h.behind (l ++ [x])) x.used.toNat (r.headD epilogue).used.toNat n =
      some (h.behind l', { h with
        contents := tagged h.contents (h.base + total l') ⟨total f + n + total g, false⟩ })) :
    ∃ h', Coalesced h h' (l ++ [x]) r n l' f g r' := by
  have htot : total (l ++ [x]) = total l' + total f := by rw [ha.left, total_append]
  have htot' : total r = total g + total r' := by rw [ha.right, total_append]
  have hdf : 8 ∣ total (f ++ ⟨n, false⟩ :: g) := by
    have ht := hw.shift.tiles
    rw [ha.left, ha.right, List.append_assoc, ← List.cons_append, ← List.append_assoc f,
      tiles_append, tiles_append] at ht
    exact ht.2.1.dvd_total
  obtain ⟨h1, h2, h3, h4, h5⟩ := hw.shift.bounds
  simp only [total_append, total_cons] at hdf
  have hd : 8 ∣ total f + n + total g := by
    rw [Nat.add_assoc]
    exact hdf
  have h8 : 8 ≤ total f + n + total g := by
    simp only at h1
    omega
  have hlt : total f + n + total g < MAX_HEAP := by
    rw [htot, htot'] at h5
    simp only at h5
    omega
  have hst := stands_free (c := h.contents) (s := h.base + total l') h8 hd hlt
  have hoff := agreeOff_tagged h.contents (h.base + total l')
    (b := ⟨total f + n + total g, false⟩) (by simp only; omega)
  have hq : HasTag { h with
      contents := tagged h.contents (h.base + total l') ⟨total f + n + total g, false⟩ }
      (h.base + total l') ⟨total f + n + total g, false⟩ := by
    refine ⟨⟨?_, ?_⟩, hst.header, hd⟩
    · show h.mem_start_brk ≤ _
      omega
    · show _ ≤ h.mem_brk
      rw [htot, htot'] at h4
      simp only at h4
      omega
  obtain ⟨j, hj, hjust⟩ := coalesce_of_merge hw hu hm hq
  exact ⟨_, ha, hne, hj, ⟨hoff, rfl, rfl, rfl, rfl, rfl, rfl⟩, hst,
    hjust.imp id fun h => ⟨h.1, Or.inr h.2⟩⟩

/-- `coalesce` at a free block behind a row of blocks. -/
theorem coalesce_spec (hw : Tiled h (l ++ ⟨n, false⟩ :: r)) (hl : l ≠ []) :
    ∃ l' f g r' h', Coalesced h h' l r n l' f g r' := by
  obtain ⟨l, x, rfl⟩ := List.eq_nil_or_concat l |>.resolve_left hl
  rw [List.concat_eq_append, List.append_assoc, List.singleton_append] at hw
  rw [List.concat_eq_append]
  -- The prologue is in use, so a free block has another one before it.
  have hx : x.used = false → l ≠ [] := by
    rintro hx rfl
    have := hw.first
    simp only [List.nil_append, List.head?_cons, Option.some.injEq] at this
    rw [this] at hx
    cases hx
  cases hxu : x.used with
  | true =>
    cases hyu : (r.headD epilogue).used with
    | true =>
      have ha : Absorbs (l ++ [x]) r (l ++ [x]) [] [] r := by
        refine ⟨by simp, by simp, Or.inl ⟨rfl, by simpa using hxu⟩, Or.inl ⟨rfl, ?_⟩⟩
        intro b hb
        cases r with
        | nil => simp at hb
        | cons y r => simp_all
      refine ⟨l ++ [x], [], [], r, h, ha, by simp, ?_, Edits.refl h _ _, ?_,
        Or.inr ⟨rfl, Or.inl ⟨rfl, rfl⟩⟩⟩
      · exact coalesce_alone hw hxu hyu
      · have hst := hw.shift.stands
        simpa using hst
    | false =>
      cases r with
      | nil => simp [epilogue] at hyu
      | cons y r =>
        have hyu' : y.used = false := hyu
        have ha : Absorbs (l ++ [x]) (y :: r) (l ++ [x]) [] [y] r :=
          ⟨by simp, rfl, Or.inl ⟨rfl, by simpa using hxu⟩, Or.inr ⟨y, rfl, hyu'⟩⟩
        have hm := merge_next hw.shift
        obtain ⟨h', hc⟩ := coalesced_of_merge hw ha (by simp) (by simp [hyu'])
          (by simpa [hxu, hyu'] using hm)
        exact ⟨_, _, _, _, h', hc⟩
  | false =>
    cases hyu : (r.headD epilogue).used with
    | true =>
      have ha : Absorbs (l ++ [x]) r l [x] [] r := by
        refine ⟨rfl, by simp, Or.inr ⟨x, rfl, hxu⟩, Or.inl ⟨rfl, ?_⟩⟩
        intro b hb
        cases r with
        | nil => simp at hb
        | cons y r => simp_all
      have hm := merge_prev hw
      obtain ⟨h', hc⟩ := coalesced_of_merge hw ha (hx hxu) (by simp [hxu])
        (by rw [hxu, hyu]; simpa using hm)
      exact ⟨_, _, _, _, h', hc⟩
    | false =>
      cases r with
      | nil => simp [epilogue] at hyu
      | cons y r =>
        have hyu' : y.used = false := hyu
        have ha : Absorbs (l ++ [x]) (y :: r) l [x] [y] r :=
          ⟨rfl, rfl, Or.inr ⟨x, rfl, hxu⟩, Or.inr ⟨y, rfl, hyu'⟩⟩
        have hm := merge_both hw
        obtain ⟨h', hc⟩ := coalesced_of_merge hw ha (hx hxu) (by simp [hxu])
          (by simpa [hxu, hyu'] using hm)
        exact ⟨_, _, _, _, h', hc⟩

/-- `just` is at a block again after coalescing. -/
theorem Coalesced.just_at {h' : Heap} {l' f g r' : List Block}
    (hc : Coalesced h h' l r n l' f g r') (hw : Tiled h (l ++ ⟨n, false⟩ :: r))
    (hj : JustAt h (l ++ ⟨n, false⟩ :: r)) :
    JustAt h' (l' ++ ⟨total f + n + total g, false⟩ :: r') := by
  have hbase := hc.edits.base
  obtain ⟨b, hj⟩ := hj
  rcases hc.just with hjust | ⟨hjust, hout⟩
  · refine ⟨_, l', r', rfl, ?_⟩
    rw [hjust]
    unfold Heap.behind
    rw [hbase]
  · unfold JustAt
    rw [hjust]
    have hsplit : l ++ ⟨n, false⟩ :: r = l' ++ ((f ++ ⟨n, false⟩ :: g) ++ r') := by
      rw [hc.absorbs.left, hc.absorbs.right]
      simp
    rcases hout with ⟨rfl, rfl⟩ | hout
    · rw [hsplit] at hj
      obtain ⟨l₁, r₁, he, hp⟩ := hj
      refine ⟨b, l₁, r₁, ?_, ?_⟩
      · rw [← he]
        simp
      · rw [hp]
        unfold Heap.behind
        rw [hbase]
    · rw [hsplit] at hj hw
      apply blockAt_relaid (v := [⟨total f + n + total g, false⟩]) hbase _ (by simp) hw hj
      · simpa [Nat.add_assoc] using hout
      · simp [Nat.add_assoc]

end Merge

/-! ## Placing and growing -/

section Place

variable {h : Heap} {s n rest asize : Nat} {u : Bool}

theorem put_used (hin : InHeap h s n) (h8 : 8 ≤ n) (hd : 8 ∣ n) (hlt : n < MAX_HEAP) :
    PUT_TAGS h (s + 4) (PACK n 1) = some { h with contents := tagged h.contents s ⟨n, true⟩ } := by
  unfold MAX_HEAP at hlt
  apply PUT_TAGS_eq hin h8 hd _ (pack_used hd)
  simp only [Block.tag, Bool.toNat_true]
  omega

theorem put_free (hin : InHeap h s n) (h8 : 8 ≤ n) (hd : 8 ∣ n) (hlt : n < MAX_HEAP) :
    PUT_TAGS h (s + 4) (PACK n 0) = some { h with contents := tagged h.contents s ⟨n, false⟩ } := by
  unfold MAX_HEAP at hlt
  apply PUT_TAGS_eq hin h8 hd _ (pack_free hd)
  simp only [Block.tag, Bool.toNat_false]
  omega

/-- The block behind a block that was just tagged. -/
theorem next_of_put_used (hin : InHeap h s n) (h8 : 8 ≤ n) (hd : 8 ∣ n) (hlt : n < MAX_HEAP) :
    NEXT_BLKP { h with contents := tagged h.contents s ⟨n, true⟩ } (s + 4) = some (s + n + 4) := by
  have hst : Stands (tagged h.contents s ⟨n, true⟩) s ⟨n, true⟩ := by
    apply stands_tagged h.contents s h8 hd
    unfold MAX_HEAP at hlt
    simp only [Block.tag, Bool.toNat_true]
    omega
  have hs : InHeap h s 4 := ⟨hin.1, by have := hin.2; omega⟩
  exact NEXT_BLKP_at (b := ⟨n, true⟩) ⟨hs, hst.header, hd⟩

/-- The free block behind a block that was just tagged. -/
theorem put_rest (hin : InHeap h s (n + rest)) (h8 : 8 ≤ rest) (hd : 8 ∣ rest)
    (hlt : n + rest < MAX_HEAP) :
    PUT_TAGS { h with contents := tagged h.contents s ⟨n, true⟩ } (s + n + 4) (PACK rest 0) =
      some { h with contents := laid h.contents s n rest } := by
  obtain ⟨hin1, hin2⟩ := hin
  have hin' : InHeap { h with contents := tagged h.contents s ⟨n, true⟩ } (s + n) rest :=
    ⟨show h.mem_start_brk ≤ s + n by omega, show s + n + rest ≤ h.mem_brk by omega⟩
  unfold laid
  rw [if_neg (by omega)]
  exact put_free hin' h8 hd (by omega)

/-- Both tags of a used block, and of the free block behind it. -/
theorem settle_eq (hin : InHeap h s (n + rest)) (h8 : 8 ≤ n) (hd : 8 ∣ n) (hr : 8 ∣ rest)
    (hlt : n + rest < MAX_HEAP) (more : Prop) [Decidable more] (hm : more ↔ rest ≠ 0) :
    settle h (s + 4) n more rest = some (s + 4, { h with contents := laid h.contents s n rest }) := by
  obtain ⟨hin1, hin2⟩ := hin
  have hin' : InHeap h s n := ⟨hin1, by omega⟩
  unfold settle
  rw [put_used hin' h8 hd (by omega)]
  by_cases hz : rest = 0
  · show (if more then _ else _) = _
    unfold laid
    rw [if_neg (by rw [hm]; simpa using hz), if_pos hz]
    rfl
  · show (if more then (NEXT_BLKP _ (s + 4)).bind fun p => (PUT_TAGS _ p (PACK rest 0)).bind
      fun h => some (s + 4, h) else _) = _
    rw [if_pos (hm.mpr hz), next_of_put_used hin' h8 hd (by omega), Option.bind_some,
      put_rest ⟨hin1, hin2⟩ (by omega) hr hlt]
    rfl

/-- `place` at a block with room for `asize`. -/
theorem place_eq (hin : InHeap h s n) (hs : HasTag h s ⟨n, u⟩) (h8 : 8 ≤ asize)
    (hd : 8 ∣ asize) (hle : asize ≤ n) (hlt : n < MAX_HEAP) :
    place h (s + 4) asize = some { h with contents := laid h.contents s asize (n - asize) } := by
  obtain ⟨hin1, hin2⟩ := hin
  have hdr : 8 ∣ n - asize := Nat.dvd_sub hs.dvd hd
  have hin' : InHeap h s asize := ⟨hin1, by omega⟩
  have hlt' : n < 2 ^ 64 := by
    unfold MAX_HEAP at hlt
    omega
  unfold place
  rw [HDRP_at, hs.size]
  show (if n > asize then (PUT_TAGS h (s + 4) (PACK asize 1)).bind fun h => (NEXT_BLKP h
    (s + 4)).bind fun p => PUT_TAGS h p (PACK (sub n asize) 0) else _) = _
  by_cases hgt : asize < n
  · rw [if_pos hgt, put_used hin' h8 hd (by omega), Option.bind_some,
      next_of_put_used hin' h8 hd (by omega), Option.bind_some, sub_eq hle hlt',
      put_rest ⟨hin1, by omega⟩ (by omega) hdr (by omega)]
  · have he : asize = n := by omega
    subst he
    unfold laid
    rw [if_neg hgt, if_pos (Nat.sub_self asize)]
    exact put_used hin' h8 hd hlt

end Place

/-! ## Extending the heap -/

theorem toInt_eq {n : Nat} (h : n < 2 ^ 31) : toInt n = n := by
  unfold toInt
  rw [BitVec.toInt_eq_toNat_cond, BitVec.toNat_ofNat, Nat.mod_eq_of_lt (by omega)]
  rw [if_pos (by omega)]

/-- The contents after `size` bytes behind the old epilogue became a free block. -/
def Heap.extended (h : Heap) (s size : Nat) : Heap :=
  { h with
    contents := store (tagged h.contents s ⟨size, false⟩) (s + size) 4 epilogue.tag
    mem_brk := h.mem_brk + size }

section Extend

variable {h : Heap} {bs : List Block} {size : Nat}

/-- The three writes of `extend_heap`. -/
theorem extended_eq {α : Type} (hw : Tiled h bs) (h8 : 8 ≤ size) (hd : 8 ∣ size)
    (hlt : size < MAX_HEAP) (k : Heap → Option α) :
    ((PUT_TAGS { h with mem_brk := h.mem_brk + size } (h.behind bs) (PACK size 0)).bind fun e =>
      (NEXT_BLKP e (h.behind bs)).bind fun p => (PUT e (HDRP p) (PACK 0 1)).bind k) =
      k (h.extended (h.base + total bs) size) := by
  have hbrk := hw.brk
  have hbase : h.mem_start_brk ≤ h.base := Nat.le_add_right _ 4
  have hin : InHeap { h with mem_brk := h.mem_brk + size } (h.base + total bs) size :=
    ⟨show h.mem_start_brk ≤ _ by omega, show _ ≤ h.mem_brk + size by omega⟩
  have hst : Stands (tagged h.contents (h.base + total bs) ⟨size, false⟩) (h.base + total bs)
      ⟨size, false⟩ := stands_free h8 hd hlt
  have ht : HasTag { h with
      contents := tagged h.contents (h.base + total bs) ⟨size, false⟩
      mem_brk := h.mem_brk + size } (h.base + total bs) ⟨size, false⟩ :=
    ⟨⟨hin.1, show _ ≤ h.mem_brk + size by omega⟩, hst.header, hd⟩
  have hput : PUT_TAGS { h with mem_brk := h.mem_brk + size } (h.behind bs) (PACK size 0) = some
      { h with
        contents := tagged h.contents (h.base + total bs) ⟨size, false⟩
        mem_brk := h.mem_brk + size } := put_free hin h8 hd hlt
  have hnext : NEXT_BLKP { h with
      contents := tagged h.contents (h.base + total bs) ⟨size, false⟩
      mem_brk := h.mem_brk + size } (h.behind bs) = some (h.base + total bs + size + 4) :=
    NEXT_BLKP_at ht
  have hp : InHeap { h with
      contents := tagged h.contents (h.base + total bs) ⟨size, false⟩
      mem_brk := h.mem_brk + size } (h.base + total bs + size) 4 :=
    ⟨show h.mem_start_brk ≤ _ by omega, show _ ≤ h.mem_brk + size by omega⟩
  have he : PACK 0 1 = epilogue.tag := rfl
  rw [hput, Option.bind_some, hnext, Option.bind_some, HDRP_at, he, PUT_eq hp]
  rfl

theorem tiled_extended (hw : Tiled h bs) (h8 : 8 ≤ size) (hd : 8 ∣ size)
    (hroom : h.mem_brk + size ≤ h.mem_start_brk + MAX_HEAP) :
    Tiled (h.extended (h.base + total bs) size) (bs ++ [⟨size, false⟩]) := by
  have hbrk := hw.brk
  have hbase : h.mem_start_brk + 4 = h.base := rfl
  have hlt : size < MAX_HEAP := by omega
  have hb : (h.extended (h.base + total bs) size).base = h.base := rfl
  have hoff : AgreeOff h.contents (h.extended (h.base + total bs) size).contents
      (h.base + total bs) (size + 4) := by
    apply AgreeOff.trans
    · exact (agreeOff_tagged h.contents _ (b := ⟨size, false⟩) (by simp only; omega)).mono
        (Nat.le_refl _) (by simp)
    · exact (agreeOff_store _ _ 4 epilogue.tag).mono (by omega) (by omega)
  refine ⟨hw.aligned, hw.start_pos, hw.start_lt, hw.listp, ?_, ?_, ?_, ?_, hroom⟩
  · rw [List.head?_append, hw.first]
    rfl
  · rw [hb, tiles_append]
    refine ⟨hw.tiles.congr (hoff.agree (by omega)), ?_, trivial⟩
    have hst : Stands (tagged h.contents (h.base + total bs) ⟨size, false⟩) (h.base + total bs)
        ⟨size, false⟩ := stands_free h8 hd hlt
    apply hst.congr
    exact (agreeOff_store _ _ 4 epilogue.tag).agree (by simp)
  · rw [hb, total_append, total_cons, total_nil]
    show h.mem_brk + size = h.base + (total bs + (size + 0)) + 4
    omega
  · rw [hb, total_append, total_cons, total_nil, Nat.add_zero, ← Nat.add_assoc]
    exact load_store_same _ _ 4 epilogue.tag

theorem sbrk_none {size : Nat} (hroom : h.mem_start_brk + MAX_HEAP < h.mem_brk + size) :
    mem_sbrk h (size : Int) = (none, h) := by
  unfold mem_sbrk
  rw [if_pos (by omega)]

theorem sbrk_some {size : Nat} (hroom : h.mem_brk + size ≤ h.mem_start_brk + MAX_HEAP) :
    mem_sbrk h (size : Int) = (some h.mem_brk, { h with mem_brk := h.mem_brk + size }) := by
  unfold mem_sbrk
  rw [if_neg (by omega), Int.toNat_natCast]

theorem extend_heap_bytes {n : Nat} (hd : 8 ∣ n) (hlt : n < 2 ^ 64) :
    extend_heap h (n / WSIZE) = free_tail n (mem_sbrk h (toInt n)) := by
  have hsize : (if n / WSIZE % 2 = 1 then (n / WSIZE + 1) * WSIZE % 2 ^ 64
      else n / WSIZE * WSIZE % 2 ^ 64) = n := by
    unfold WSIZE
    rw [if_neg (by omega)]
    omega
  unfold extend_heap
  simp only [hsize]

/-- An `int` keeps the lower 32 bits of a size. -/
theorem toInt_mod (n : Nat) : toInt (n % 2 ^ 32) = toInt n := by
  unfold toInt
  congr 1
  apply BitVec.eq_of_toNat_eq
  simp

/-- So do the tags. -/
theorem PUT_mod {n : Nat} (hd : 8 ∣ n) (p : Nat) :
    PUT h p (PACK n 0) = PUT h p (PACK (n % 2 ^ 32) 0) := by
  unfold PUT
  rw [pack_free hd, pack_free (by omega : 8 ∣ n % 2 ^ 32)]
  simp only [Block.tag, Bool.toNat_false, Nat.add_zero]
  have hword : store h.contents p 4 (n % 2 ^ 32) = store h.contents p 4 n :=
    store_mod h.contents p 4 n
  rw [hword]

theorem extend_heap_mod {n : Nat} (hd : 8 ∣ n) (hlt : n < 2 ^ 64) :
    extend_heap h (n / WSIZE) = extend_heap h (n % 2 ^ 32 / WSIZE) := by
  have htags : ∀ (e : Heap) (p : Nat),
      PUT_TAGS e p (PACK n 0) = PUT_TAGS e p (PACK (n % 2 ^ 32) 0) := by
    intro e p
    unfold PUT_TAGS
    simp only [PUT_mod hd]
  rw [extend_heap_bytes hd hlt, extend_heap_bytes (by omega) (by omega), toInt_mod]
  generalize mem_sbrk h (toInt n) = v
  obtain ⟨_ | p, e⟩ := v
  · rfl
  · show (PUT_TAGS e p (PACK n 0)).bind _ = (PUT_TAGS e p (PACK (n % 2 ^ 32) 0)).bind _
    rw [htags]

/-- `mem_sbrk` refuses what is negative as an `int`, and what the heap has no room for. -/
theorem extend_heap_refuses {n : Nat} (hd : 8 ∣ n) (hlt : n < 2 ^ 64)
    (hno : ¬(n % 2 ^ 32 < 2 ^ 31 ∧ h.mem_brk + n % 2 ^ 32 ≤ h.mem_start_brk + MAX_HEAP)) :
    extend_heap h (n / WSIZE) = some (0, h) := by
  have hsb : mem_sbrk h (toInt n) = (none, h) := by
    unfold mem_sbrk
    apply if_pos
    rw [← toInt_mod]
    by_cases hneg : n % 2 ^ 32 < 2 ^ 31
    · right
      rw [toInt_eq hneg, Int.toNat_natCast]
      omega
    · left
      unfold toInt
      rw [BitVec.toInt_eq_toNat_cond, BitVec.toNat_ofNat, if_neg (by omega)]
      omega
  rw [extend_heap_bytes hd hlt, hsb]
  rfl

theorem extend_heap_eq {words : Nat} (he : words % 2 = 0) (hlt : words * 4 < 2 ^ 31) :
    extend_heap h words = free_tail (words * 4) (mem_sbrk h (words * 4 : Nat)) := by
  have hsize : (if words % 2 = 1 then (words + 1) * WSIZE % 2 ^ 64 else words * WSIZE % 2 ^ 64) =
      words * 4 := by
    unfold WSIZE
    rw [if_neg (by omega)]
    exact Nat.mod_eq_of_lt (by omega)
  unfold extend_heap
  simp only [hsize, toInt_eq hlt]

/-- The new free block takes up a free block before it. -/
theorem coalesce_extended (hw : Tiled h bs) (h8 : 8 ≤ size) (hd : 8 ∣ size)
    (hroom : h.mem_brk + size ≤ h.mem_start_brk + MAX_HEAP) :
    ∃ l f h', Absorbs bs [] l f [] [] ∧ l ≠ [] ∧
      coalesce (h.extended (h.base + total bs) size) (h.behind bs) = some (h.behind l, h') ∧
      Edits (h.extended (h.base + total bs) size) h' (h.base + total l) (total f + size) ∧
      Tiled h' (l ++ [⟨total f + size, false⟩]) ∧
      (JustAt h bs → JustAt h' (l ++ [⟨total f + size, false⟩])) := by
  have ht := tiled_extended hw h8 hd hroom
  have hne : bs ≠ [] := by
    rintro rfl
    simpa using hw.first
  obtain ⟨l, f, g, r, h', hc⟩ := coalesce_spec ht hne
  have hgr : g = [] ∧ r = [] := by simpa using hc.absorbs.right.symm
  obtain ⟨rfl, rfl⟩ := hgr
  have hed := hc.edits
  have hst := hc.stands
  rw [total_nil, Nat.add_zero] at hed hst
  have hjust : JustAt h bs → JustAt h' (l ++ [⟨total f + size, false⟩]) := by
    rintro ⟨b, l₁, r₁, rfl, hp⟩
    have hj := hc.just_at ht ⟨b, l₁, r₁ ++ [⟨size, false⟩], by simp, hp⟩
    simpa using hj
  refine ⟨l, f, h', hc.absorbs, hc.nonempty, hc.runs, hed, ?_, hjust⟩
  have hbs : bs ++ [⟨size, false⟩] = l ++ ((f ++ [⟨size, false⟩]) ++ []) := by
    rw [hc.absorbs.left]
    simp
  rw [hbs] at ht
  show Tiled h' (l ++ ([⟨total f + size, false⟩] ++ []))
  apply ht.replace
  · rw [total_append]
    exact hed
  · simp
  · exact ⟨hst, trivial⟩
  · exact ht.first_append hc.nonempty _

/-- `extend_heap` by an even number of words: it fails and leaves the heap alone, or the
last free block takes up the new bytes. -/
theorem extend_heap_spec (words : Nat) (hw : Tiled h bs) (he : words % 2 = 0) (hpos : 0 < words)
    (hlt : words * 4 < 2 ^ 31) :
    (h.mem_start_brk + MAX_HEAP < h.mem_brk + words * 4 ∧ extend_heap h words = some (0, h)) ∨
    ∃ l f h', Absorbs bs [] l f [] [] ∧ l ≠ [] ∧ extend_heap h words = some (h.behind l, h') ∧
      Edits (h.extended (h.base + total bs) (words * 4)) h' (h.base + total l)
        (total f + words * 4) ∧
      Tiled h' (l ++ [⟨total f + words * 4, false⟩]) ∧
      (JustAt h bs → JustAt h' (l ++ [⟨total f + words * 4, false⟩])) := by
  have hdv : 8 ∣ words * 4 := by omega
  have h8 : 8 ≤ words * 4 := by omega
  rw [extend_heap_eq he hlt]
  generalize words * 4 = size at hlt hdv h8 ⊢
  by_cases hroom : h.mem_start_brk + MAX_HEAP < h.mem_brk + size
  · left
    rw [sbrk_none hroom]
    exact ⟨hroom, rfl⟩
  · right
    have hbrk : h.mem_brk = h.behind bs := hw.brk
    have hbase : h.mem_start_brk + 4 = h.base := rfl
    have hlt' : size < MAX_HEAP := by
      have := hw.brk
      omega
    obtain ⟨l, f, h', ha, hl, hrun, hed, ht, hj⟩ := coalesce_extended hw h8 hdv (by omega)
    refine ⟨l, f, h', ha, hl, ?_, hed, ht, hj⟩
    rw [sbrk_some (by omega), ← hrun]
    have hext := extended_eq hw h8 hdv hlt' fun e => coalesce e (h.behind bs)
    rw [← hbrk] at hext ⊢
    exact hext

end Extend
/-! ## The two fits -/

/-- A block that a request of `asize` bytes can take. -/
def Fits (asize : Nat) (b : Block) : Prop := b.used = false ∧ asize ≤ b.size

instance (asize : Nat) (b : Block) : Decidable (Fits asize b) := inferInstanceAs (Decidable (_ ∧ _))

section Fit

variable {h : Heap} {asize : Nat} {l r rest : List Block} {b : Block}

theorem fits_eq (hb : HasTag h (h.base + total l) b) :
    fits h (h.behind l) asize = some (decide (Fits asize b)) := by
  unfold fits Heap.behind
  rw [HDRP_at, hb.alloc]
  show (if b.used.toNat = 0 then (GET_SIZE h (h.base + total l)).bind fun v =>
    some (decide (asize ≤ v)) else some false) = _
  rw [hb.size]
  cases hu : b.used <;> simp [Fits, hu]

theorem behind_snoc (h : Heap) (l : List Block) (b : Block) :
    h.behind (l ++ [b]) = h.base + total l + b.size + 4 := by
  unfold Heap.behind
  rw [base_snoc]

/-- The walk up to the tail: the first block that fits, or the tail in `end`. -/
theorem to_tail_spec (asize : Nat) (hw : Tiled h (l ++ r)) {n e : Nat} (hn : r.length < n) :
    (∃ l' k r' e', r = l' ++ ⟨k, false⟩ :: r' ∧ asize ≤ k ∧ (∀ b ∈ l', ¬ Fits asize b) ∧
      to_tail h asize n (h.behind l) e = some (h.behind (l ++ l'), e')) ∨
    ((∀ b ∈ r, ¬ Fits asize b) ∧ ∃ e', to_tail h asize n (h.behind l) e = some (0, e') ∧
      (r = [] → e' = e) ∧ ∀ r' b, r = r' ++ [b] → e' = h.behind (l ++ r')) := by
  induction n generalizing l r e with
  | zero => omega
  | succ n ih =>
    have hh := hw.next_header
    have hstart : to_tail h asize (n + 1) (h.behind l) e =
        if (r.headD epilogue).size > 0 then (fits h (h.behind l) asize).bind fun t =>
          if t = true then some (h.behind l, e) else (NEXT_BLKP h (h.behind l)).bind fun p =>
            to_tail h asize n p (h.behind l)
        else some (0, e) := by
      show (GET_SIZE h (h.base + total l)).bind _ = _
      rw [hh.size]
      rfl
    rw [hstart]
    cases r with
    | nil =>
      right
      refine ⟨by simp, e, rfl, fun _ => rfl, ?_⟩
      intro r' b hr
      simp at hr
    | cons b r =>
      have hsz : b.size > 0 := Nat.lt_of_lt_of_le (by decide) hw.bounds.1
      have hb : HasTag h (h.base + total l) b := hw.header
      rw [show (List.headD (b :: r) epilogue) = b from rfl, if_pos hsz, fits_eq hb,
        Option.bind_some]
      by_cases hfit : Fits asize b
      · left
        obtain ⟨k, u⟩ := b
        obtain ⟨hu, hk⟩ := hfit
        simp only at hu hk
        subst hu
        refine ⟨[], k, r, e, rfl, hk, by simp, ?_⟩
        rw [if_pos (by simp [Fits, hk]), List.append_nil]
      · rw [if_neg (by simpa using hfit)]
        have hnext : NEXT_BLKP h (h.behind l) = some (h.behind (l ++ [b])) := by
          rw [behind_snoc]
          exact NEXT_BLKP_at hb
        rw [hnext, Option.bind_some]
        have hlen : r.length < n := by
          simp only [List.length_cons] at hn
          omega
        rcases ih hw.shift (e := h.behind l) hlen with
          ⟨l', k, r', e', rfl, hk, hno, hrun⟩ | ⟨hno, e', hrun, hnil, hend⟩
        · left
          refine ⟨b :: l', k, r', e', rfl, hk, ?_, ?_⟩
          · simpa using ⟨hfit, hno⟩
          · rw [hrun, List.append_assoc, List.singleton_append]
        · right
          refine ⟨by simpa using ⟨hfit, hno⟩, e', hrun, by simp, ?_⟩
          intro r' d hr
          cases r' with
          | nil =>
            -- The last block: the walk below it ends at once.
            simp only [List.nil_append, List.cons.injEq] at hr
            rw [hnil hr.2, List.append_nil]
          | cons b' r' =>
            simp only [List.cons_append, List.cons.injEq] at hr
            obtain ⟨rfl, hr⟩ := hr
            rw [hend r' d hr, List.append_assoc, List.singleton_append]

/-- `first_fit` walks as the first loop of `next_fit` does. -/
theorem first_fit_loop_eq (h : Heap) (asize n bp e : Nat) :
    first_fit_loop h asize n bp = (to_tail h asize n bp e).map Prod.fst := by
  induction n generalizing bp e with
  | zero => rfl
  | succ n ih =>
    show (GET_SIZE h (HDRP bp)).bind _ = ((GET_SIZE h (HDRP bp)).bind _).map Prod.fst
    rw [Option.map_bind]
    apply Option.bind_congr
    intro v _
    show (if v > 0 then (fits h bp asize).bind _ else some 0) =
      Option.map Prod.fst (if v > 0 then (fits h bp asize).bind _ else some (0, e))
    split
    · rw [Option.map_bind]
      apply Option.bind_congr
      intro t _
      show (if t = true then some bp else (NEXT_BLKP h bp).bind _) =
        Option.map Prod.fst (if t = true then some (bp, e) else (NEXT_BLKP h bp).bind _)
      split
      · rfl
      · rw [Option.map_bind]
        apply Option.bind_congr
        intro p _
        exact ih p bp
    · rfl

/-- The walk from the start of the list up to `just`. -/
theorem to_just_spec (asize : Nat) (hw : Tiled h (l ++ (r ++ rest))) (hj : h.just = h.behind (l ++ r)) {n : Nat}
    (hn : r.length < n) :
    (∃ l' k r', r = l' ++ ⟨k, false⟩ :: r' ∧ asize ≤ k ∧ (∀ b ∈ l', ¬ Fits asize b) ∧
      to_just h asize n (h.behind l) = some (h.behind (l ++ l'))) ∨
    ((∀ b ∈ r, ¬ Fits asize b) ∧ to_just h asize n (h.behind l) = some 0) := by
  induction n generalizing l r with
  | zero => omega
  | succ n ih =>
    have hstart : to_just h asize (n + 1) (h.behind l) =
        if h.behind l < h.just then (fits h (h.behind l) asize).bind fun t =>
          if t = true then some (h.behind l) else (NEXT_BLKP h (h.behind l)).bind fun p =>
            to_just h asize n p
        else some 0 := rfl
    rw [hstart]
    cases r with
    | nil =>
      right
      rw [List.append_nil] at hj
      rw [if_neg (by omega)]
      exact ⟨by simp, rfl⟩
    | cons b r =>
      have h8 : 8 ≤ b.size := hw.bounds.1
      have hb : HasTag h (h.base + total l) b := hw.header
      have hlt : h.behind l < h.just := by
        rw [hj, behind_append, total_cons]
        omega
      rw [if_pos hlt, fits_eq hb, Option.bind_some]
      by_cases hfit : Fits asize b
      · left
        obtain ⟨k, u⟩ := b
        obtain ⟨hu, hk⟩ := hfit
        simp only at hu hk
        subst hu
        refine ⟨[], k, r, rfl, hk, by simp, ?_⟩
        rw [if_pos (by simp [Fits, hk]), List.append_nil]
      · rw [if_neg (by simpa using hfit)]
        have hnext : NEXT_BLKP h (h.behind l) = some (h.behind (l ++ [b])) := by
          rw [behind_snoc]
          exact NEXT_BLKP_at hb
        rw [hnext, Option.bind_some]
        have hlen : r.length < n := by
          simp only [List.length_cons] at hn
          omega
        have hj' : h.just = h.behind ((l ++ [b]) ++ r) := by
          rw [hj, List.append_assoc, List.singleton_append]
        rcases ih hw.shift hj' hlen with ⟨l', k, r', rfl, hk, hno, hrun⟩ | ⟨hno, hrun⟩
        · left
          refine ⟨b :: l', k, r', rfl, hk, by simpa using ⟨hfit, hno⟩, ?_⟩
          rw [hrun, List.append_assoc, List.singleton_append]
        · right
          exact ⟨by simpa using ⟨hfit, hno⟩, hrun⟩

theorem next_fit_of_tail {p e : Nat} (ht : to_tail h asize (turns h) h.just h.end_ = some (p, e))
    (hp : p ≠ 0) : next_fit h asize = some (p, { h with just := p, end_ := e }) := by
  unfold next_fit
  rw [ht]
  exact if_pos hp

theorem next_fit_of_just {q e : Nat} (ht : to_tail h asize (turns h) h.just h.end_ = some (0, e))
    (hq : to_just { h with end_ := e } asize (turns h) h.heap_listp = some q) :
    next_fit h asize = some (q, if q ≠ 0 then { h with just := q, end_ := e }
      else { h with end_ := e }) := by
  unfold next_fit
  rw [ht]
  show (to_just { h with end_ := e } asize (turns h) h.heap_listp).bind (fun p =>
    if p ≠ 0 then some (p, { h with just := p, end_ := e }) else some (0, { h with end_ := e })) = _
  rw [hq, Option.bind_some]
  by_cases h0 : q = 0
  · subst h0
    rfl
  · rw [if_pos h0, if_pos h0]

/-- The blocks with their starts in the order of the search: from `just` to the tail, and
then from the start of the list up to `just`. -/
def searchOrder (h : Heap) (bs : List Block) : List (Nat × Block) :=
  (placed h.base bs).filter (fun e => decide (h.just ≤ e.1 + 4)) ++
    (placed h.base bs).filter fun e => decide (e.1 + 4 < h.just)

/-- The first block of the search that a request of `asize` bytes can take. -/
def firstThatFits (h : Heap) (bs : List Block) (asize : Nat) : Option (Nat × Block) :=
  (searchOrder h bs).find? fun e => decide (Fits asize e.2)

theorem searchOrder_split (hw : Tiled h (l ++ r)) (hj : h.just = h.behind l) :
    searchOrder h (l ++ r) = placed (h.base + total l) r ++ placed h.base l := by
  have h8 : ∀ {s : Nat} {b : Block}, (s, b) ∈ placed h.base (l ++ r) → 0 < b.size := by
    intro s b hs
    obtain ⟨l', r', he, -⟩ := mem_placed.mp hs
    rw [he] at hw
    exact Nat.lt_of_lt_of_le (by decide) hw.bounds.1
  have hl : ∀ e ∈ placed h.base l, e.1 + 4 < h.just := by
    intro e he
    have hb := placed_bounds he
    have := h8 (s := e.1) (b := e.2) (by rw [placed_append]; exact List.mem_append_left _ he)
    rw [hj]
    unfold Heap.behind
    omega
  have hr : ∀ e ∈ placed (h.base + total l) r, h.just ≤ e.1 + 4 := by
    intro e he
    have hb := placed_bounds he
    rw [hj]
    unfold Heap.behind
    omega
  unfold searchOrder
  rw [placed_append, List.filter_append, List.filter_append,
    List.filter_eq_nil_iff.mpr fun e he => by simpa using hl e he,
    List.filter_eq_self.mpr fun e he => by simpa using hr e he,
    List.filter_eq_self.mpr fun e he => by simpa using hl e he,
    List.filter_eq_nil_iff.mpr fun e he => by simpa using hr e he, List.nil_append,
    List.append_nil]

theorem find_placed_none {s : Nat} (hno : ∀ b ∈ l, ¬ Fits asize b) :
    (placed s l).find? (fun e => decide (Fits asize e.2)) = none := by
  rw [List.find?_eq_none]
  intro e he
  obtain ⟨l', r', rfl, -⟩ := mem_placed.mp he
  simpa using hno e.2 (by simp)

theorem find_placed {s k : Nat} (hno : ∀ b ∈ l, ¬ Fits asize b) (hk : asize ≤ k) :
    (placed s (l ++ ⟨k, false⟩ :: r)).find? (fun e => decide (Fits asize e.2)) =
      some (s + total l, ⟨k, false⟩) := by
  have hfits : Fits asize ⟨k, false⟩ := ⟨rfl, hk⟩
  rw [placed_append, List.find?_append, find_placed_none hno, Option.none_or, placed,
    List.find?_cons_of_pos (by simpa using hfits)]

/-- `next_fit` with `just` at a block: it finds the first block of the search that fits, or
there is none and `end` is at the last block. -/
theorem next_fit_order (asize : Nat) {bs : List Block} (hw : Tiled h bs) (hj : JustAt h bs) :
    (∃ l k r e, bs = l ++ ⟨k, false⟩ :: r ∧ asize ≤ k ∧
      firstThatFits h bs asize = some (h.base + total l, ⟨k, false⟩) ∧
      next_fit h asize = some (h.behind l, { h with just := h.behind l, end_ := e })) ∨
    ((∀ d ∈ bs, ¬ Fits asize d) ∧ ∃ l d, bs = l ++ [d] ∧
      next_fit h asize = some (0, { h with end_ := h.behind l })) := by
  obtain ⟨b, l, r, rfl, hjust⟩ := hj
  have hlen := hw.length_lt
  rw [List.length_append] at hlen
  have horder := searchOrder_split hw hjust
  rcases to_tail_spec asize hw (show (b :: r).length < turns h by omega)
    (e := h.end_) with ⟨l', k, r', e', hr, hk, hno, htail⟩ | ⟨hno, e', htail, -, hend⟩
  · left
    rw [← hjust] at htail
    refine ⟨l ++ l', k, r', e', by rw [hr, List.append_assoc], hk, ?_, ?_⟩
    · unfold firstThatFits
      rw [horder, hr, List.find?_append, find_placed hno hk, total_append, Nat.add_assoc]
      rfl
    · exact next_fit_of_tail htail (behind_pos h _)
  · rw [← hjust] at htail
    have hw' : Tiled { h with end_ := e' } ([] ++ (l ++ (b :: r))) :=
      ⟨hw.aligned, hw.start_pos, hw.start_lt, hw.listp, hw.first, hw.tiles, hw.brk, hw.last,
        hw.bound⟩
    have hb : Heap.behind { h with end_ := e' } [] = h.heap_listp := hw.listp.symm
    rcases to_just_spec asize hw' hjust (show l.length < turns h by omega) with
      ⟨l', k, r', rfl, hk, hno', hjrun⟩ | ⟨hno', hjrun⟩
    · left
      refine ⟨l', k, r' ++ b :: r, e', by simp, hk, ?_, ?_⟩
      · unfold firstThatFits
        rw [horder, List.find?_append, find_placed_none hno, find_placed hno' hk]
        rfl
      · rw [hb] at hjrun
        rw [next_fit_of_just htail hjrun, if_pos (behind_pos _ _)]
        rfl
    · right
      obtain ⟨r', d, hrd⟩ := List.eq_nil_or_concat' (b :: r) |>.resolve_left (by simp)
      refine ⟨?_, l ++ r', d, by rw [hrd, List.append_assoc], ?_⟩
      · intro d hd
        rcases List.mem_append.mp hd with hd | hd
        · exact hno' d hd
        · exact hno d hd
      · rw [hb] at hjrun
        rw [next_fit_of_just htail hjrun, if_neg (by simp), hend r' d hrd]

/-- What `next_fit` finds, whatever the order. -/
theorem next_fit_spec (asize : Nat) {bs : List Block} (hw : Tiled h bs) (hj : JustAt h bs) :
    (∃ l k r e, bs = l ++ ⟨k, false⟩ :: r ∧ asize ≤ k ∧
      next_fit h asize = some (h.behind l, { h with just := h.behind l, end_ := e })) ∨
    ((∀ d ∈ bs, ¬ Fits asize d) ∧ ∃ l d, bs = l ++ [d] ∧
      next_fit h asize = some (0, { h with end_ := h.behind l })) :=
  (next_fit_order asize hw hj).imp
    (fun ⟨l, k, r, e, hbs, hk, _, hfit⟩ => ⟨l, k, r, e, hbs, hk, hfit⟩) id

end Fit

end ics_labs.mm
