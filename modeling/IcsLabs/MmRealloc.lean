-- What `mm_realloc` does to a block that has to grow: in place, into the free
-- neighbours, or by a move to a new block.
import IcsLabs.MmCalls

open ics_labs.byte_words ics_labs.boundary_tags

namespace ics_labs.mm

/-! ## Growing in place -/

/-- A grown block is laid over the stretch `m` of the heap, whose only used block is the one
at `p`. Its old bytes may have been moved to the front before. -/
theorem settle_spec {h : Heap} {l m r : List Block} {p asize rest : Nat} {c : Contents}
    (hw : WellFormed h (l ++ (m ++ r))) (hl : l ≠ [])
    (hm : ∀ s b, (s, b) ∈ placed (h.base + total l) m → b.used = true → s + 4 = p)
    (h8 : 8 ≤ asize) (hd : 8 ∣ asize) (htot : asize + rest = total m)
    (hrest : rest ≠ 0 → ∀ d ∈ r.head?, d.used = true)
    (hc : AgreeOff h.contents c (h.base + total l) (total m)) (more : Prop) [Decidable more]
    (hmore : more ↔ rest ≠ 0) :
    ∃ h' bs', settle { h with contents := c } (h.behind l) asize more rest =
        some (h.behind l, h') ∧
      Granted h h' (l ++ (m ++ r)) bs' (fun q => q = p) (h.behind l) asize ∧
      (∀ x, h.behind l ≤ x → x < h.behind l + asize - 8 → h'.contents x = c x) ∧
      (JustAt h (l ++ (m ++ r)) → (h.just ≤ h.behind l ∨ h.just = h.behind l + asize ∨
        h.behind l + total m ≤ h.just) → JustAt h' bs') ∧
      ∀ s k, FreeAt h (l ++ (m ++ r)) s k → (s < h.behind l ∨ h.behind l + total m ≤ s) →
        FreeAt h' bs' s k := by
  have hbrk := hw.brk
  have hlt := hw.toTiled.total_lt
  have hdm : 8 ∣ total m := (tiles_append.mp (tiles_append.mp hw.tiles).2).1.dvd_total
  have hdr : 8 ∣ rest := (Nat.dvd_add_right hd).mp (htot ▸ hdm)
  simp only [total_append] at hbrk hlt
  have hbase : h.mem_start_brk + 4 = h.base := rfl
  have hin : InHeap { h with contents := c } (h.base + total l) (asize + rest) :=
    ⟨show h.mem_start_brk ≤ _ by omega, show _ ≤ h.mem_brk by omega⟩
  have hrun := settle_eq hin h8 hd hdr (by omega) more hmore
  have e : Edits h { h with contents := laid c (h.base + total l) asize rest } (h.base + total l)
      (total m) := by
    apply Edits.contents
    rw [← htot] at hc ⊢
    exact hc.trans (agreeOff_laid c _ h8 hdr)
  have hti := tiles_laid c (h.base + total l) h8 hd hdr (by unfold MAX_HEAP at hlt; omega)
  have hlt' : total (⟨asize, true⟩ :: leftover rest) = total m := by simp [htot]
  refine ⟨{ h with contents := laid c (h.base + total l) asize rest }, _, hrun,
    carve hw hl hm h8 hd htot hrest e hti, ?_, ?_, ?_⟩
  · intro x h1 h2
    unfold Heap.behind at h1 h2
    exact laid_inside c (by omega) (by omega)
  · rintro ⟨b, hj⟩ hout
    rcases hout with hout | hout | hout
    · exact blockAt_relaid (m := m) e.base hlt' (by simp) hw.toTiled hj (Or.inl hout)
    · by_cases hz : rest = 0
      · exact blockAt_relaid (m := m) e.base hlt' (by simp) hw.toTiled hj
          (Or.inr (show h.behind l + total m ≤ h.just by omega))
      · refine ⟨⟨rest, false⟩, l ++ [⟨asize, true⟩], r, ?_, ?_⟩
        · unfold leftover
          rw [if_neg hz]
          simp
        · show h.just = h.base + total (l ++ [⟨asize, true⟩]) + 4
          rw [hout, base_snoc]
          unfold Heap.behind
          simp only
          omega
    · exact blockAt_relaid (m := m) e.base hlt' (by simp) hw.toTiled hj (Or.inr hout)
  · intro s k hs hout
    exact freeAt_outside (m := m) e.base hlt' hw.toTiled hs hout

/-- Where `grow` puts a block that it can grow in place outside mode 1, and the bytes of
the stretch that it takes up. -/
def inPlace (h : Heap) (ptr oldsize asize : Nat) : Option (Nat × Nat) := do
  let add_size := sub asize oldsize
  let prev_blk ← PREV_BLKP h ptr
  let prev_blk_size ← GET_SIZE h (HDRP prev_blk)
  let prev_blk_alloc ← GET_ALLOC h (HDRP prev_blk)
  let next_blk ← NEXT_BLKP h ptr
  let next_blk_size ← GET_SIZE h (HDRP next_blk)
  let next_blk_alloc ← GET_ALLOC h (HDRP next_blk)
  if prev_blk_alloc = 0 ∧ next_blk_alloc = 0 ∧ add64 prev_blk_size next_blk_size ≥ add_size then
    return (prev_blk, prev_blk_size + oldsize + next_blk_size)
  else if prev_blk_alloc = 0 ∧ prev_blk_size ≥ add_size then
    return (prev_blk, prev_blk_size + oldsize)
  else if next_blk_alloc = 0 ∧ next_blk_size ≥ add_size then
    return (ptr, oldsize + next_blk_size)
  else none

/-- The sizes and bits that `grow` reads on both sides of the block. -/
structure Between (h : Heap) (l : List Block) (x : Block) (old : Nat) (y : Block) : Prop where
  prev : PREV_BLKP h (h.behind (l ++ [x])) = some (h.behind l)
  prev_size : GET_SIZE h (HDRP (h.behind l)) = some x.size
  prev_alloc : GET_ALLOC h (HDRP (h.behind l)) = some x.used.toNat
  next : NEXT_BLKP h (h.behind (l ++ [x])) = some (h.behind (l ++ [x]) + old)
  next_size : GET_SIZE h (HDRP (h.behind (l ++ [x]) + old)) = some y.size
  next_alloc : GET_ALLOC h (HDRP (h.behind (l ++ [x]) + old)) = some y.used.toNat

theorem Tiled.between {h : Heap} {l r : List Block} {x : Block} {old : Nat}
    (hw : Tiled h (l ++ x :: ⟨old, true⟩ :: r)) : Between h l x old (r.headD epilogue) := by
  obtain ⟨h1, -⟩ := hw.bounds
  have hx := hw.header
  have hf := hw.footer
  have hs := hw.shift.header
  have hy := hw.shift.shift.next_header
  rw [base_snoc] at hs
  rw [base_snoc, base_snoc] at hy
  have hb : h.behind (l ++ [x]) = h.base + total l + x.size + 4 := behind_snoc h l x
  have hn : h.behind (l ++ [x]) + old = h.base + total l + x.size + old + 4 := by omega
  refine ⟨?_, ?_, ?_, ?_, ?_, ?_⟩
  · rw [hb]
    exact PREV_BLKP_at hf h1
  · exact hx.size
  · exact hx.alloc
  · rw [hn, hb]
    exact NEXT_BLKP_at hs
  · rw [hn]
    exact hy.size
  · rw [hn]
    exact hy.alloc

section Grow

variable {h : Heap} {l r : List Block} {x y : Block} {old size asize : Nat}

theorem inPlace_eq (hb : Between h l x old y) :
    inPlace h (h.behind (l ++ [x])) old asize =
      if x.used.toNat = 0 ∧ y.used.toNat = 0 ∧ add64 x.size y.size ≥ sub asize old then
        some (h.behind l, x.size + old + y.size)
      else if x.used.toNat = 0 ∧ x.size ≥ sub asize old then some (h.behind l, x.size + old)
      else if y.used.toNat = 0 ∧ y.size ≥ sub asize old then
        some (h.behind (l ++ [x]), old + y.size)
      else none := by
  unfold inPlace
  rw [hb.prev, hb.next]
  show ((GET_SIZE h (HDRP (h.behind l))).bind fun ps => (GET_ALLOC h (HDRP (h.behind l))).bind
    fun pa => (GET_SIZE h (HDRP (h.behind (l ++ [x]) + old))).bind fun ns =>
    (GET_ALLOC h (HDRP (h.behind (l ++ [x]) + old))).bind fun na => _) = _
  rw [hb.prev_size, hb.prev_alloc, hb.next_size, hb.next_alloc]
  rfl

theorem grow_eq (hb : Between h l x old y) (hT : h.TR ≠ 1) :
    grow h (h.behind (l ++ [x])) size old asize =
      if x.used.toNat = 0 ∧ y.used.toNat = 0 ∧ add64 x.size y.size ≥ sub asize old then
        (memmove h (h.behind l) (h.behind (l ++ [x])) old).bind fun e => settle e (h.behind l) asize
          (sub asize old < add64 x.size y.size) (add64 (sub x.size (sub asize old)) y.size)
      else if x.used.toNat = 0 ∧ x.size ≥ sub asize old then
        (memmove h (h.behind l) (h.behind (l ++ [x])) old).bind fun e => settle e (h.behind l) asize
          (sub asize old < x.size) (sub x.size (sub asize old))
      else if y.used.toNat = 0 ∧ y.size ≥ sub asize old then
        settle h (h.behind (l ++ [x])) asize (sub asize old < y.size) (sub y.size (sub asize old))
      else norm_realloc h (h.behind (l ++ [x])) size old := by
  unfold grow
  rw [hb.prev, hb.next]
  show ((GET_SIZE h (HDRP (h.behind l))).bind fun ps => (GET_ALLOC h (HDRP (h.behind l))).bind
    fun pa => (GET_SIZE h (HDRP (h.behind (l ++ [x]) + old))).bind fun ns =>
    (GET_ALLOC h (HDRP (h.behind (l ++ [x]) + old))).bind fun na => if h.TR = 1 then _ else _) = _
  rw [hb.prev_size, hb.prev_alloc, hb.next_size, hb.next_alloc]
  simp only [Option.bind_some]
  rw [if_neg hT]
  rfl

theorem memmove_eq {p q n : Nat} (hp : InHeap h p n) (hq : InHeap h q n) :
    memmove h p q n = some { h with contents := move h.contents p q n } := if_pos ⟨hp, hq⟩

/-- What growing in place leaves behind. -/
structure Grown (h h' : Heap) (bs bs' : List Block) (p q old asize t : Nat) : Prop where
  granted : Granted h h' bs bs' (fun g => g = p) q asize
  copied : Copied h.contents h'.contents p q (old - 8)
  just : JustAt h bs → (h.just ≤ q ∨ h.just = q + asize ∨ q + t ≤ h.just) → JustAt h' bs'
  free : ∀ s k, FreeAt h bs s k → (s < q ∨ q + t ≤ s) → FreeAt h' bs' s k

/-- The block grows into a free block before it, with the bytes moved to the front. `m` is
what lies behind the block in the stretch. -/
theorem grow_left {m : List Block} (rest : Nat) (hl : l ≠ [])
    (hw : WellFormed h (l ++ ((⟨x.size, false⟩ :: ⟨old, true⟩ :: m) ++ r)))
    (hm : ∀ b ∈ m, b.used = false) (h8 : 8 ≤ asize) (hd : 8 ∣ asize) (hlt : old < asize)
    (htot : asize + rest = x.size + old + total m)
    (hrest : rest ≠ 0 → ∀ d ∈ r.head?, d.used = true) (more : Prop) [Decidable more]
    (hmore : more ↔ rest ≠ 0) :
    ∃ h' bs', ((memmove h (h.behind l) (h.behind (l ++ [⟨x.size, false⟩])) old).bind fun e =>
        settle e (h.behind l) asize more rest) = some (h.behind l, h') ∧
      Grown h h' (l ++ ((⟨x.size, false⟩ :: ⟨old, true⟩ :: m) ++ r)) bs'
        (h.behind (l ++ [⟨x.size, false⟩])) (h.behind l) old asize (x.size + old + total m) := by
  have hbrk := hw.brk
  simp only [total_append, total_cons] at hbrk
  have hx8 : 8 ≤ x.size := hw.toTiled.bounds.1
  have hbase : h.mem_start_brk + 4 = h.base := rfl
  have hb : h.behind (l ++ [⟨x.size, false⟩]) = h.base + total l + x.size + 4 := behind_snoc h l _
  have hb' : h.behind l = h.base + total l + 4 := rfl
  have hmove : AgreeOff h.contents
      (move h.contents (h.behind l) (h.behind (l ++ [⟨x.size, false⟩])) old)
      (h.base + total l) (total (⟨x.size, false⟩ :: ⟨old, true⟩ :: m)) := by
    apply (agreeOff_move h.contents _ _ old).mono
    · omega
    · simp only [total_cons]
      omega
  have hmem : ∀ s b, (s, b) ∈ placed (h.base + total l) (⟨x.size, false⟩ :: ⟨old, true⟩ :: m) →
      b.used = true → s + 4 = h.behind (l ++ [⟨x.size, false⟩]) := by
    intro s b hs hu
    simp only [placed, List.mem_cons, Prod.mk.injEq] at hs
    rcases hs with ⟨-, rfl⟩ | ⟨rfl, -⟩ | hs
    · cases hu
    · rw [hb]
    · obtain ⟨l₁, r₁, rfl, -⟩ := mem_placed.mp hs
      rw [hm b (by simp)] at hu
      cases hu
  obtain ⟨h', bs', hrun, hg, hcopy, hj, hfr⟩ := settle_spec hw hl hmem h8 hd
    (by simp only [total_cons]; omega) hrest hmove more hmore
  refine ⟨h', bs', ?_, hg, ?_, ?_, ?_⟩
  · rw [memmove_eq ⟨by omega, by omega⟩ ⟨by omega, by omega⟩, Option.bind_some]
    exact hrun
  · intro i hi
    rw [hcopy _ (by omega) (by omega)]
    exact move_apply (by omega)
  · intro hjust hout
    apply hj hjust
    simp only [total_cons]
    rcases hout with h1 | h1 | h1
    · exact Or.inl h1
    · exact Or.inr (Or.inl h1)
    · exact Or.inr (Or.inr (by omega))
  · intro s k hs hout
    apply hfr s k hs
    simp only [total_cons]
    exact hout.imp id fun h1 => by omega

/-- The block grows into the free block behind it. -/
theorem grow_right (rest : Nat) (hl : l ≠ [])
    (hw : WellFormed h (l ++ ([⟨old, true⟩, ⟨y.size, false⟩] ++ r)))
    (h8 : 8 ≤ asize) (hd : 8 ∣ asize) (hlt : old < asize)
    (htot : asize + rest = old + y.size) (more : Prop) [Decidable more]
    (hmore : more ↔ rest ≠ 0) :
    ∃ h' bs', settle h (h.behind l) asize more rest = some (h.behind l, h') ∧
      Grown h h' (l ++ ([⟨old, true⟩, ⟨y.size, false⟩] ++ r)) bs' (h.behind l) (h.behind l)
        old asize (old + y.size) := by
  have hmem : ∀ s b, (s, b) ∈ placed (h.base + total l) [⟨old, true⟩, ⟨y.size, false⟩] →
      b.used = true → s + 4 = h.behind l := by
    intro s b hs hu
    simp only [placed, List.mem_cons, Prod.mk.injEq, List.not_mem_nil, or_false] at hs
    rcases hs with ⟨rfl, -⟩ | ⟨-, rfl⟩
    · rfl
    · cases hu
  have hrest : ∀ d ∈ r.head?, d.used = true :=
    Spaced.used_after_free (l := l ++ [⟨old, true⟩]) (b := ⟨y.size, false⟩)
      (by simpa using hw.spaced) rfl
  obtain ⟨h', bs', hrun, hg, hcopy, hj, hfr⟩ := settle_spec hw hl hmem h8 hd
    (by simp only [total_cons, total_nil]; omega) (fun _ => hrest) (agreeOff_refl _ _ _) more hmore
  refine ⟨h', bs', hrun, hg, ?_, ?_, ?_⟩
  · intro i hi
    exact hcopy _ (by omega) (by omega)
  · intro hjust hout
    apply hj hjust
    simpa using hout
  · intro s k hs hout
    apply hfr s k hs
    simpa using hout

/-- `grow` outside mode 1: it grows the block in place, or it goes on to move it. -/
theorem grow_spec (size : Nat) {bs : List Block} {p : Nat} (hw : WellFormed h bs) (hp : Live h bs p old)
    (hT : h.TR ≠ 1) (h8 : 8 ≤ asize) (hd : 8 ∣ asize) (hlt : old < asize) (h64 : asize < 2 ^ 64) :
    (∃ q t h' bs', inPlace h p old asize = some (q, t) ∧
      grow h p size old asize = some (q, h') ∧ q ≠ 0 ∧ Grown h h' bs bs' p q old asize t) ∨
    (inPlace h p old asize = none ∧ grow h p size old asize = norm_realloc h p size old) := by
  obtain ⟨l, r, rfl, hl, rfl⟩ := hp
  obtain ⟨l, x, rfl⟩ := List.eq_nil_or_concat' l |>.resolve_left hl
  rw [List.append_assoc, List.singleton_append] at hw ⊢
  have hx : x.used = false → l ≠ [] := by
    rintro hx rfl
    have := hw.first
    simp only [List.nil_append, List.head?_cons, Option.some.injEq] at this
    rw [this] at hx
    cases hx
  have hb := hw.toTiled.between
  generalize hy : r.headD epilogue = y at hb
  -- A free block behind this one is a block of the heap: the epilogue is in use.
  have hy' : y.used = false → ∃ r', r = y :: r' := by
    intro hu
    cases r with
    | nil =>
      rw [← hy] at hu
      cases hu
    | cons z r' =>
      simp only [List.headD_cons] at hy
      exact ⟨r', by rw [hy]⟩
  have hsz := hw.toTiled.total_lt
  simp only [total_append, total_cons] at hsz
  unfold MAX_HEAP at hsz
  have hysz : y.size < 2 ^ 32 := by
    cases r with
    | nil =>
      rw [← hy]
      simp [epilogue]
    | cons z r' =>
      simp only [List.headD_cons] at hy
      simp only [total_cons, hy] at hsz
      omega
  have hadd : sub asize old = asize - old := sub_eq (by omega) (by omega)
  have hsum : add64 x.size y.size = x.size + y.size := add64_eq (by omega)
  rw [inPlace_eq hb, grow_eq hb hT, hadd, hsum]
  simp only [Bool.toNat_eq_zero]
  by_cases h1 : x.used = false ∧ y.used = false ∧ x.size + y.size ≥ asize - old
  · left
    obtain ⟨hxu, hyu, hroom⟩ := h1
    obtain ⟨r', rfl⟩ := hy' hyu
    rw [if_pos ⟨hxu, hyu, hroom⟩, if_pos ⟨hxu, hyu, hroom⟩]
    obtain ⟨n, u⟩ := x
    obtain ⟨k, v⟩ := y
    simp only at hxu hyu hroom ⊢
    subst hxu hyu
    have hrest : add64 (sub n (asize - old)) k = n + k - (asize - old) := by
      unfold add64 sub
      simp only at hsz hysz
      omega
    have hafter : ∀ d ∈ r'.head?, d.used = true :=
      Spaced.used_after_free (l := l ++ [⟨n, false⟩, ⟨old, true⟩]) (b := ⟨k, false⟩)
        (by simpa using hw.spaced) rfl
    rw [hrest]
    obtain ⟨h', bs', hrun, hgrown⟩ := grow_left (h := h) (x := ⟨n, false⟩)
      (m := [⟨k, false⟩]) (r := r') (n + k - (asize - old)) (hx rfl)
      (by simpa using hw) (by simp) h8 hd hlt (by simp only [total_cons, total_nil]; omega)
      (fun _ => hafter) (asize - old < n + k) (by omega)
    exact ⟨_, _, h', bs', rfl, hrun, behind_pos h l, by simpa using hgrown⟩
  · rw [if_neg h1, if_neg h1]
    by_cases h2 : x.used = false ∧ x.size ≥ asize - old
    · left
      obtain ⟨hxu, hroom⟩ := h2
      rw [if_pos ⟨hxu, hroom⟩, if_pos ⟨hxu, hroom⟩]
      -- The block behind is in use, or both free blocks would have been taken.
      have hyu : ∀ d ∈ r.head?, d.used = true := by
        intro d hd
        cases r with
        | nil => simp at hd
        | cons z r' =>
          simp only [List.head?_cons, Option.mem_def, Option.some.injEq] at hd
          simp only [List.headD_cons] at hy
          subst hy
          rw [← hd]
          by_contra hz
          exact h1 ⟨hxu, by simpa using hz, by omega⟩
      obtain ⟨n, u⟩ := x
      simp only at hxu hroom ⊢
      subst hxu
      have hrest : sub n (asize - old) = n - (asize - old) := sub_eq hroom (by simp only at hsz; omega)
      rw [hrest]
      obtain ⟨h', bs', hrun, hgrown⟩ := grow_left (h := h) (x := ⟨n, false⟩) (m := [])
        (r := r) (n - (asize - old)) (hx rfl) (by simpa using hw)
        (by simp) h8 hd hlt (by simp only [total_nil]; omega) (fun _ => hyu) (asize - old < n)
        (by omega)
      exact ⟨_, _, h', bs', rfl, hrun, behind_pos h l, by simpa using hgrown⟩
    · rw [if_neg h2, if_neg h2]
      by_cases h3 : y.used = false ∧ y.size ≥ asize - old
      · left
        obtain ⟨hyu, hroom⟩ := h3
        obtain ⟨r', rfl⟩ := hy' hyu
        rw [if_pos ⟨hyu, hroom⟩, if_pos ⟨hyu, hroom⟩]
        obtain ⟨k, v⟩ := y
        simp only at hyu hroom ⊢
        subst hyu
        have hrest : sub k (asize - old) = k - (asize - old) :=
          sub_eq hroom (by simp only at hysz; omega)
        rw [hrest]
        obtain ⟨h', bs', hrun, hgrown⟩ := grow_right (h := h) (l := l ++ [x])
          (y := ⟨k, false⟩) (r := r') (k - (asize - old)) (by simp) (by simpa using hw)
          h8 hd hlt (by simp only; omega) (asize - old < k) (by omega)
        exact ⟨_, _, h', bs', rfl, hrun, behind_pos h _, by simpa using hgrown⟩
      · right
        rw [if_neg h3, if_neg h3]
        exact ⟨rfl, rfl⟩

end Grow

/-! ## Moving a block -/

theorem Granted.block_at {h h' : Heap} {bs bs' : List Block} {gone : Nat → Prop} {p asize : Nat}
    (hg : Granted h h' bs bs' gone p asize) :
    ∃ l r k, bs' = l ++ ⟨k, true⟩ :: r ∧ asize ≤ k ∧ p = h'.behind l := by
  obtain ⟨k, hk, l, r, he, hp⟩ := hg.block
  exact ⟨l, r, k, he, hk, hp⟩

/-- Bytes that are moved into a block in use stay inside its payload: no other block changes. -/
theorem move_served {h : Heap} {l r : List Block} {k n : Nat} {gone : Nat → Prop}
    (hw : WellFormed h (l ++ ⟨k, true⟩ :: r)) (hn : n + 8 ≤ k) (p : Nat)
    (hgone : gone (h.behind l)) :
    Served h { h with contents := move h.contents (h.behind l) p n } (l ++ ⟨k, true⟩ :: r)
      (l ++ ⟨k, true⟩ :: r) gone := by
  have e : Edits h { h with contents := move h.contents (h.behind l) p n } (h.behind l) n :=
    Edits.contents (agreeOff_move _ _ _ _)
  refine ⟨⟨hw.toTiled.payload hn e, hw.spaced⟩, ⟨rfl, fun _ _ hb _ _ => hb, ?_⟩, rfl, rfl, rfl⟩
  intro g b hb hu hng
  have hblock : BlockAt h (l ++ ⟨k, true⟩ :: r) (h.behind l) ⟨k, true⟩ := ⟨l, r, rfl, rfl⟩
  have hge : 4 ≤ g := by
    obtain ⟨l₂, -, -, rfl⟩ := hb
    unfold Heap.behind
    omega
  apply e.off.agree
  rcases blockAt_apart hb hblock with ⟨h1, -⟩ | h1 | h1
  · exact absurd (h1 ▸ hgone) hng
  · omega
  · simp only at h1
    omega

/-- `norm_realloc` once `mm_malloc` gave out a new block: the payload is copied there, and
the old block goes. The heaps `h₀` and `h` may differ in the statics. -/
theorem norm_realloc_spec {h₀ h h₁ : Heap} {bs bs₁ : List Block} {p q old size asize : Nat}
    (hw : WellFormed h bs) (hp : Live h bs p old) (hm : mm_malloc h₀ size = some (q, h₁))
    (hq : q ≠ 0) (hg : Granted h h₁ bs bs₁ (fun _ => False) q asize) (hlt : old + 8 ≤ asize) :
    ∃ h' bs', norm_realloc h₀ p size old = some (q, h') ∧
      Served h₁ h' bs₁ bs' (fun g => g = p ∨ g = q) ∧
      Granted h h' bs bs' (fun g => g = p) q asize ∧
      Copied h.contents h'.contents p q (old - 8) ∧ (JustAt h₁ bs₁ → JustAt h' bs') ∧
      ∀ s k, FreeAt h₁ bs₁ s k → s ≠ p + old → FreeAt h' bs' s k := by
  have hp₁ : Live h₁ bs₁ p old := hg.live hw.toTiled hp (by simp)
  have hne : q ≠ p := by
    rintro rfl
    exact hg.fresh _ hp.blockAt rfl
  obtain ⟨l, r, k, rfl, hk, rfl⟩ := hg.block_at
  have hlive := hp₁
  obtain ⟨l₁, r₁, he, -, hpl⟩ := hp₁
  obtain ⟨h1, h2, h3, h4, -⟩ := hg.wf.toTiled.bounds
  have hold := hg.wf.toTiled
  rw [he] at hold
  obtain ⟨h5, -, -, h6, -⟩ := hold.bounds
  simp only at h1 h2 h4 h5 h6
  -- The copy reads and writes inside the heap.
  have hin : InHeap h₁ (h₁.behind l) old := by
    unfold Heap.behind
    exact ⟨by omega, by omega⟩
  have hin' : InHeap h₁ p old := by
    rw [hpl]
    unfold Heap.behind
    exact ⟨by omega, by omega⟩
  have hmv := memmove_eq hin hin'
  have hk₂ : Served h₁ { h₁ with contents := move h₁.contents (h₁.behind l) p old }
      (l ++ ⟨k, true⟩ :: r) (l ++ ⟨k, true⟩ :: r) (fun g => g = p ∨ g = h₁.behind l) :=
    move_served hg.wf (by omega) p (Or.inr rfl)
  have hp₂ : Live { h₁ with contents := move h₁.contents (h₁.behind l) p old }
      (l ++ ⟨k, true⟩ :: r) p old := hlive
  obtain ⟨h', bs', hfree, hs, hj, hfr⟩ := mm_free_spec hk₂.wf hp₂
  have hs' := hk₂.trans ⟨hs.wf, hs.keeps.weaken fun _ hx => Or.inl hx, hs.fmalloc, hs.TR,
    hs.Q_no⟩
  have hblock : BlockAt { h₁ with contents := move h₁.contents (h₁.behind l) p old }
      (l ++ ⟨k, true⟩ :: r) (h₁.behind l) ⟨k, true⟩ := ⟨l, r, rfl, rfl⟩
  have hq4 : 4 ≤ h₁.behind l := by
    unfold Heap.behind
    omega
  refine ⟨h', bs', ?_, hs', ⟨⟨hs.wf, ⟨hs'.keeps.start.trans hg.keeps.start, ?_, ?_⟩,
    hs'.fmalloc.trans hg.fmalloc, hs'.TR.trans hg.TR, hs'.Q_no.trans hg.Q_no⟩,
    ⟨k, hk, hs.keeps.block _ _ hblock rfl hne⟩, ?_⟩, ?_, hj, hfr⟩
  · unfold norm_realloc
    rw [hm]
    show (if h₁.behind l = 0 then some (0, h₁) else (memmove h₁ (h₁.behind l) p old).bind fun e =>
      (mm_free e p).bind fun e => some (h₁.behind l, e)) = _
    rw [if_neg hq, hmv, Option.bind_some, hfree]
    rfl
  · -- No block that was in use is at the new place.
    intro g b hb hu hn
    refine hs'.keeps.block g b (hg.keeps.block g b hb hu (by simp)) hu ?_
    rintro (h7 | h7)
    · exact hn h7
    · rw [h7] at hb
      exact hg.fresh b hb hu
  · intro g b hb hu hn
    refine (hg.keeps.bytes g b hb hu (by simp)).trans
      (hs'.keeps.bytes g b (hg.keeps.block g b hb hu (by simp)) hu ?_)
    rintro (h7 | h7)
    · exact hn h7
    · rw [h7] at hb
      exact hg.fresh b hb hu
  · intro b hb hu
    exact (hg.fresh b hb hu).elim
  · intro i hi
    have h7 := hs.keeps.bytes _ _ hblock rfl hne (h₁.behind l + i) (by omega)
      (by simp only; omega)
    have h8 := hg.keeps.bytes p _ hp.blockAt rfl (by simp) (p + i) (by omega) (by
      have : 4 ≤ p := by
        rw [hpl]
        unfold Heap.behind
        omega
      simp only
      omega)
    rw [← h7, h8]
    exact move_apply (by omega)

end ics_labs.mm
