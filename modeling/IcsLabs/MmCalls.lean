-- What a request does to a well-formed heap. Every used block that the request does
-- not name stays where it is, with its bytes.
import IcsLabs.MmBlocks

open ics_labs.byte_words ics_labs.boundary_tags

namespace ics_labs.mm

/-- A request ended in a well-formed heap, and the used blocks outside `gone` stayed. -/
structure Served (h h' : Heap) (bs bs' : List Block) (gone : Nat → Prop) : Prop where
  wf : WellFormed h' bs'
  keeps : Keeps h h' bs bs' gone
  fmalloc : h'.fmalloc = h.fmalloc
  TR : h'.TR = h.TR
  Q_no : h'.Q_no = h.Q_no

/-- And it gave out a block of `asize` bytes or more at `p`, where no other used block is. -/
structure Granted (h h' : Heap) (bs bs' : List Block) (gone : Nat → Prop) (p asize : Nat) : Prop
    extends Served h h' bs bs' gone where
  block : ∃ k, asize ≤ k ∧ BlockAt h' bs' p ⟨k, true⟩
  fresh : ∀ b, BlockAt h bs p b → b.used = true → gone p

theorem Served.trans {h h' h'' : Heap} {bs bs' bs'' : List Block} {gone : Nat → Prop}
    (a : Served h h' bs bs' gone) (b : Served h' h'' bs' bs'' gone) :
    Served h h'' bs bs'' gone :=
  ⟨b.wf, a.keeps.trans b.keeps, b.fmalloc.trans a.fmalloc, b.TR.trans a.TR, b.Q_no.trans a.Q_no⟩

/-- The cursors are no part of what makes a heap well formed. -/
theorem WellFormed.cursors {h : Heap} {bs : List Block} (hw : WellFormed h bs) (j e : Nat) :
    WellFormed { h with just := j, end_ := e } bs :=
  ⟨⟨hw.aligned, hw.start_pos, hw.start_lt, hw.listp, hw.first, hw.tiles, hw.brk, hw.last,
    hw.bound⟩, hw.spaced⟩

/-- Nor are the modes. -/
theorem WellFormed.modes {h : Heap} {bs : List Block} (hw : WellFormed h bs) (f : Bool) (t : Nat)
    (q : Int) : WellFormed { h with fmalloc := f, TR := t, Q_no := q } bs :=
  ⟨⟨hw.aligned, hw.start_pos, hw.start_lt, hw.listp, hw.first, hw.tiles, hw.brk, hw.last,
    hw.bound⟩, hw.spaced⟩

theorem Served.refl {h : Heap} {bs : List Block} (hw : WellFormed h bs) (gone : Nat → Prop) :
    Served h h bs bs gone := ⟨hw, Keeps.refl h bs gone, rfl, rfl, rfl⟩

/-! ## Laying a block over a stretch of the heap -/

section Carve

variable {h h' : Heap} {l m r : List Block} {asize k : Nat}

/-- A used block of `asize` bytes is laid over the stretch `m`, with a free block behind it.
What is used in `m` is in `gone`. -/
theorem carve (hw : WellFormed h (l ++ (m ++ r))) (hl : l ≠ []) {g : Nat → Prop}
    (hm : ∀ s b, (s, b) ∈ placed (h.base + total l) m → b.used = true → g (s + 4))
    (h8 : 8 ≤ asize) (hd : 8 ∣ asize) (htot : asize + k = total m)
    (hrest : k ≠ 0 → ∀ d ∈ r.head?, d.used = true)
    (e : Edits h h' (h.base + total l) (total m))
    (hc : Tiles h'.contents (h.base + total l) (⟨asize, true⟩ :: leftover k)) :
    Granted h h' (l ++ (m ++ r)) (l ++ ((⟨asize, true⟩ :: leftover k) ++ r)) g
      (h.behind l) asize := by
  have hlt : total (⟨asize, true⟩ :: leftover k) = total m := by simp [htot]
  have hsp := hw.spaced
  have ht : Tiled h' (l ++ ((⟨asize, true⟩ :: leftover k) ++ r)) :=
    hw.toTiled.replace e hlt hc (hw.toTiled.first_append hl _)
  have hspaced : Spaced (l ++ ((⟨asize, true⟩ :: leftover k) ++ r)) := by
    rw [List.cons_append]
    exact hsp.left.insert (hsp.right.right.leftover hrest) rfl
  refine ⟨⟨⟨ht, hspaced⟩, e.keeps hlt hm, e.fmalloc, e.TR, e.Q_no⟩, ⟨asize, Nat.le_refl _, l, _, rfl, ?_⟩, ?_⟩
  · unfold Heap.behind
    rw [e.base]
  · -- The front of `m` is the only block that starts there.
    intro b hb hu
    obtain ⟨s, hs, hmem⟩ := blockAt_iff.mp hb
    have hse : s = h.base + total l := by
      unfold Heap.behind at hs
      omega
    subst hse
    rw [placed_append, placed_append, List.mem_append, List.mem_append] at hmem
    have h8b : 8 ≤ b.size := by
      obtain ⟨l₁, r₁, he, -⟩ := hb
      have := hw.toTiled
      rw [he] at this
      exact this.bounds.1
    rcases hmem with hmem | hmem | hmem
    · have := placed_bounds hmem
      omega
    · exact hm _ b hmem hu
    · have := placed_bounds hmem
      omega

end Carve

/-- `place` at a free block of a well-formed heap. -/
theorem place_spec {h : Heap} {l r : List Block} {n asize : Nat}
    (hw : WellFormed h (l ++ ⟨n, false⟩ :: r)) (h8 : 8 ≤ asize) (hd : 8 ∣ asize)
    (hle : asize ≤ n) :
    ∃ h' bs', place h (h.behind l) asize = some h' ∧
      Granted h h' (l ++ ⟨n, false⟩ :: r) bs' (fun _ => False) (h.behind l) asize ∧
      h'.just = h.just ∧ (JustAt h (l ++ ⟨n, false⟩ :: r) → JustAt h' bs') ∧
      (asize < n → FreeAt h' bs' (h.behind l + asize) (n - asize)) ∧
      ∀ q k, FreeAt h (l ++ ⟨n, false⟩ :: r) q k → q ≠ h.behind l → FreeAt h' bs' q k := by
  obtain ⟨h1, h2, h3, h4, h5⟩ := hw.toTiled.bounds
  simp only at h1 h2 h4 h5
  have hin : InHeap h (h.base + total l) n := ⟨by omega, by omega⟩
  have hn : asize + (n - asize) = n := by omega
  have hdr : 8 ∣ n - asize := Nat.dvd_sub h2 hd
  have hl : l ≠ [] := by
    rintro rfl
    have := hw.first
    simp [prologue] at this
  have hlt : n < MAX_HEAP := by omega
  have e : Edits h { h with contents := laid h.contents (h.base + total l) asize (n - asize) }
      (h.base + total l) (total [⟨n, false⟩]) := by
    apply Edits.contents
    have hoff := agreeOff_laid h.contents (h.base + total l) h8 hdr
    rw [hn] at hoff
    simpa using hoff
  have hg := carve (m := [⟨n, false⟩]) (r := r) (g := fun _ => False) (k := n - asize) hw hl
    (by
      intro s b hs hb
      simp only [placed, List.mem_singleton, Prod.mk.injEq] at hs
      obtain ⟨-, rfl⟩ := hs
      cases hb)
    h8 hd (by simp [hn]) (fun _ => hw.spaced.used_after_free rfl) e
    (tiles_laid h.contents _ h8 hd hdr (by rw [hn]; unfold MAX_HEAP at hlt; omega))
  refine ⟨_, _, place_eq hin hw.toTiled.header h8 hd hle hlt, hg, rfl, ?_, ?_, ?_⟩
  · rintro ⟨b, hj⟩
    exact blockAt_relaid (m := [⟨n, false⟩]) e.base (by simp [hn]) (by simp) hw.toTiled hj
      (by simpa using blockAt_not_inside hj)
  · intro hlt'
    refine ⟨n - asize, Nat.le_refl _, l ++ [⟨asize, true⟩], r, ?_, ?_⟩
    · unfold leftover
      rw [if_neg (by omega)]
      simp
    · show h.base + total l + 4 + asize = h.base + total (l ++ [⟨asize, true⟩]) + 4
      rw [base_snoc]
      simp only
      omega
  · -- A free block elsewhere is outside the block that was taken.
    rintro q k ⟨j, hk, hj⟩ hq
    refine ⟨j, hk, blockAt_outside (m := [⟨n, false⟩]) e.base (by simp [hn]) hw.toTiled hj ?_⟩
    have hb := blockAt_not_inside hj
    simp only [total_cons, total_nil, Nat.add_zero]
    exact hb.imp (fun h6 => Nat.lt_of_le_of_ne h6 hq) id

/-! ## A larger heap -/

/-- After `extend_heap` succeeded the heap is well formed, and its last block is free. -/
theorem extend_heap_served {h : Heap} {bs : List Block} (words : Nat) (hw : WellFormed h bs)
    (he : words % 2 = 0) (hpos : 0 < words) (hlt : words * 4 < 2 ^ 31) :
    (h.mem_start_brk + MAX_HEAP < h.mem_brk + words * 4 ∧ extend_heap h words = some (0, h)) ∨
    ∃ l f h', bs = l ++ f ∧ (f = [] ∨ ∃ x, f = [x] ∧ x.used = false) ∧
      ((∃ x, bs.getLast? = some x ∧ x.used = false) → f ≠ []) ∧
      extend_heap h words = some (h.behind l, h') ∧ h'.base = h.base ∧
      h'.mem_brk = h.mem_brk + words * 4 ∧
      Served h h' bs (l ++ [⟨total f + words * 4, false⟩]) (fun _ => False) ∧
      (JustAt h bs → JustAt h' (l ++ [⟨total f + words * 4, false⟩])) := by
  rcases extend_heap_spec words hw.toTiled he hpos hlt with ⟨hroom, hrun⟩ | ⟨l, f, h', ha, hl, hrun, e, ht, hj⟩
  · exact Or.inl ⟨hroom, hrun⟩
  · right
    have hleft := ha.left
    have hb : h'.base = h.base := e.base
    have hag : AgreeOff h.contents (h.extended (h.base + total bs) (words * 4)).contents
        (h.base + total bs) (words * 4 + 4) := by
      apply AgreeOff.trans
      · exact (agreeOff_tagged h.contents _ (b := ⟨words * 4, false⟩) (by simp only; omega)).mono
          (Nat.le_refl _) (by simp)
      · exact (agreeOff_store _ _ 4 epilogue.tag).mono (by omega) (by omega)
    refine ⟨l, f, h', hleft, ?_, ?_, hrun, hb, e.brk, ⟨⟨ht, ?_⟩, ⟨e.start, ?_, ?_⟩, e.fmalloc, e.TR,
      e.Q_no⟩, hj⟩
    · exact ha.before.imp And.left id
    · rintro ⟨x, hx, hxu⟩ rfl
      rcases ha.before with ⟨-, hlast⟩ | ⟨y, hy, -⟩
      · rw [hleft, List.append_nil] at hx
        have := hlast x hx
        rw [hxu] at this
        cases this
      · cases hy
    · exact ha.spaced hw.spaced List.isChain_nil _
    · intro p b hp hu _
      obtain ⟨s, rfl, hs⟩ := blockAt_iff.mp hp
      refine blockAt_iff.mpr ⟨s, rfl, ?_⟩
      rw [hb, placed_append]
      rw [hleft, placed_append] at hs
      rcases List.mem_append.mp hs with hs | hs
      · exact List.mem_append_left _ hs
      · obtain ⟨l₁, r₁, rfl, -⟩ := mem_placed.mp hs
        have := ha.free.1 b (by simp)
        rw [hu] at this
        cases this
    · intro p b hp hu _
      obtain ⟨s, rfl, hs⟩ := blockAt_iff.mp hp
      have htot : total bs = total l + total f := by rw [hleft, total_append]
      have hbd := placed_bounds hs
      rw [hleft, placed_append] at hs
      rcases List.mem_append.mp hs with hs | hs
      · have hbd' := placed_bounds hs
        exact (hag.agree (by omega)).trans (e.off.agree (by omega))
      · obtain ⟨l₁, r₁, rfl, -⟩ := mem_placed.mp hs
        have := ha.free.1 b (by simp)
        rw [hu] at this
        cases this

/-- The bytes that a request lacks when no block fits: a free last block is a part of them. -/
def lacks (bs : List Block) (asize : Nat) : Nat :=
  match bs.getLast? with
  | some ⟨n, false⟩ => asize - n
  | _ => max asize CHUNKSIZE

theorem lacks_snoc (l : List Block) (b : Block) (asize : Nat) :
    lacks (l ++ [b]) asize = if b.used = false then asize - b.size else max asize CHUNKSIZE := by
  obtain ⟨n, u⟩ := b
  unfold lacks
  rw [List.getLast?_append_of_ne_nil _ (by simp), List.getLast?_singleton]
  cases u <;> rfl

/-- What `norm_malloc` asks for, with `end` at the last block. -/
theorem growth_eq {h : Heap} {l : List Block} {b : Block} {asize : Nat} (hw : Tiled h (l ++ [b]))
    (hend : h.end_ = h.behind l) (hno : ¬ Fits asize b) (hlt : asize < 2 ^ 64) :
    growth h asize = some (lacks (l ++ [b]) asize) := by
  have hb : HasTag h (h.base + total l) b := hw.header
  unfold growth
  rw [hend, show HDRP (h.behind l) = h.base + total l from rfl, hb.alloc]
  show (if b.used.toNat = 0 then (GET_SIZE h (h.base + total l)).bind fun v =>
    some (sub asize v) else some (max asize CHUNKSIZE)) = _
  rw [hb.size, lacks_snoc]
  cases hu : b.used with
  | true => rfl
  | false =>
    have hsz : b.size < asize := by
      unfold Fits at hno
      simp only [hu, true_and, Nat.not_le] at hno
      exact hno
    show some (sub asize b.size) = some (asize - b.size)
    rw [sub_eq (by omega) hlt]

/-- The lower 32 bits of `n`, which are what `mem_sbrk` is given of it, are fewer bytes than
`n`, and the heap can grow by as many. -/
def CutShort (h : Heap) (n : Nat) : Prop :=
  2 ^ 32 ≤ n ∧ n % 2 ^ 32 < 2 ^ 31 ∧ h.mem_brk + n % 2 ^ 32 ≤ h.mem_start_brk + MAX_HEAP

instance (h : Heap) (n : Nat) : Decidable (CutShort h n) := inferInstanceAs (Decidable (_ ∧ _))

section Norm

variable {h : Heap} {l r bs : List Block} {b : Block} {asize : Nat}

/-- What is lacking is a positive multiple of 8, and no more than the request or a chunk. -/
theorem lacks_spec (hb : 8 ∣ b.size) (hno : ¬ Fits asize b) (hd : 8 ∣ asize) :
    8 ∣ lacks (l ++ [b]) asize ∧ 0 < lacks (l ++ [b]) asize ∧
      lacks (l ++ [b]) asize ≤ max asize CHUNKSIZE := by
  rw [lacks_snoc]
  unfold CHUNKSIZE
  split
  · rename_i hu
    unfold Fits at hno
    simp only [hu, true_and, Nat.not_le] at hno
    exact ⟨Nat.dvd_sub hd hb, by omega, by omega⟩
  · refine ⟨?_, by omega, Nat.le_refl _⟩
    rcases Nat.le_total asize (2 ^ 12) with h1 | h1
    · rw [Nat.max_eq_right h1]
      decide
    · rw [Nat.max_eq_left h1]
      exact hd

/-- `norm_malloc` once `next_fit` found a block. -/
theorem norm_malloc_fit {e : Nat} (hfit : next_fit h asize = some (h.behind l, { h with
    just := h.behind l, end_ := e })) : norm_malloc h asize =
      (place { h with just := h.behind l, end_ := e } (h.behind l) asize).bind fun h' =>
        some (h.behind l, h') := by
  show (next_fit h asize).bind (fun v => if v.1 ≠ 0 then (place v.2 v.1 asize).bind fun h =>
    some (v.1, h) else (growth v.2 asize).bind fun ext => (extend_heap v.2 (ext / WSIZE)).bind
    fun w => if w.1 = 0 then some (0, w.2) else (place w.2 w.1 asize).bind fun h =>
      some (w.1, h)) = _
  rw [hfit, Option.bind_some, if_pos (behind_pos h l)]

/-- `norm_malloc` when no block fits. -/
theorem norm_malloc_no_fit (hw : Tiled h (l ++ [b])) (hno : ¬ Fits asize b)
    (hfit : next_fit h asize = some (0, { h with end_ := h.behind l })) (hlt : asize < 2 ^ 64) :
    norm_malloc h asize =
      (extend_heap { h with end_ := h.behind l } (lacks (l ++ [b]) asize / WSIZE)).bind fun w =>
        if w.1 = 0 then some (0, w.2) else (place w.2 w.1 asize).bind fun h => some (w.1, h) := by
  have hw' : Tiled { h with end_ := h.behind l } (l ++ [b]) :=
    ⟨hw.aligned, hw.start_pos, hw.start_lt, hw.listp, hw.first, hw.tiles, hw.brk, hw.last,
      hw.bound⟩
  show (next_fit h asize).bind (fun v => if v.1 ≠ 0 then (place v.2 v.1 asize).bind fun h =>
    some (v.1, h) else (growth v.2 asize).bind fun ext => (extend_heap v.2 (ext / WSIZE)).bind
    fun w => if w.1 = 0 then some (0, w.2) else (place w.2 w.1 asize).bind fun h =>
      some (w.1, h)) = _
  rw [hfit, Option.bind_some, if_neg (by simp), growth_eq hw' rfl hno hlt, Option.bind_some]

/-- What is lacking when no block fits. -/
theorem lacks_of_no_fit (hw : WellFormed h bs) (hd : 8 ∣ asize) (hno : ∀ b ∈ bs, ¬ Fits asize b) :
    8 ∣ lacks bs asize ∧ 0 < lacks bs asize ∧ lacks bs asize ≤ max asize CHUNKSIZE := by
  obtain ⟨l, b, rfl⟩ := List.eq_nil_or_concat' bs |>.resolve_left (by
    rintro rfl
    simpa using hw.first)
  exact lacks_spec hw.toTiled.bounds.2.1 (hno b (by simp)) hd

/-- Then `norm_malloc` asks `extend_heap` for it, with `end` at the last block. -/
theorem norm_malloc_asks (hw : WellFormed h bs) (hj : JustAt h bs) (hlt : asize < 2 ^ 64)
    (hno : ∀ b ∈ bs, ¬ Fits asize b) : ∃ e, WellFormed { h with end_ := e } bs ∧
      norm_malloc h asize =
        (extend_heap { h with end_ := e } (lacks bs asize / WSIZE)).bind fun w =>
          if w.1 = 0 then some (0, w.2) else (place w.2 w.1 asize).bind fun h => some (w.1, h) := by
  rcases next_fit_spec asize hw.toTiled hj with
    ⟨l, k, r, e, rfl, hk, -⟩ | ⟨-, l, b, rfl, hfit⟩
  · exact absurd ⟨rfl, hk⟩ (hno ⟨k, false⟩ (by simp))
  · exact ⟨h.behind l, hw.cursors h.just _,
      norm_malloc_no_fit hw.toTiled (hno b (by simp)) hfit hlt⟩

/-- The block that `next_fit` found is given out. -/
theorem norm_malloc_placed {e k : Nat} (hw : WellFormed h (l ++ ⟨k, false⟩ :: r))
    (hfit : next_fit h asize = some (h.behind l, { h with just := h.behind l, end_ := e }))
    (h8 : 8 ≤ asize) (hd : 8 ∣ asize) (hk : asize ≤ k) :
    ∃ h' bs', norm_malloc h asize = some (h.behind l, h') ∧
      Granted h h' (l ++ ⟨k, false⟩ :: r) bs' (fun _ => False) (h.behind l) asize ∧
      JustAt h' bs' := by
  have hw' := hw.cursors (h.behind l) e
  obtain ⟨h', bs', hplace, hg, -, hjust, -⟩ := place_spec hw' h8 hd hk
  refine ⟨h', bs', ?_, ?_, ?_⟩
  · have hplace' : place { h with just := h.behind l, end_ := e } (h.behind l) asize = some h' :=
      hplace
    rw [norm_malloc_fit hfit, hplace', Option.bind_some]
  · exact ⟨⟨hg.wf, ⟨hg.keeps.start, hg.keeps.block, hg.keeps.bytes⟩, hg.fmalloc, hg.TR, hg.Q_no⟩,
      hg.block, hg.fresh⟩
  · exact hjust ⟨_, l, r, rfl, rfl⟩

/-- Nothing fits and the heap grows by what is lacking: the last block is given out. -/
theorem norm_malloc_grown (hw : WellFormed h (l ++ [b])) (hj : JustAt h (l ++ [b]))
    (hno : ¬ Fits asize b)
    (hfit : next_fit h asize = some (0, { h with end_ := h.behind l })) (h8 : 8 ≤ asize)
    (hd : 8 ∣ asize) (hlt : asize < 2 ^ 64) (hl : lacks (l ++ [b]) asize < 2 ^ 31) :
    norm_malloc h asize = some (0, { h with end_ := h.behind l }) ∨
    ∃ p h' bs', norm_malloc h asize = some (p, h') ∧ p ≠ 0 ∧
      Granted h h' (l ++ [b]) bs' (fun _ => False) p asize ∧ JustAt h' bs' := by
  have hw' : WellFormed { h with end_ := h.behind l } (l ++ [b]) := hw.cursors h.just _
  have hj' : JustAt { h with end_ := h.behind l } (l ++ [b]) := hj
  obtain ⟨hx1, hx2, -⟩ := lacks_spec (l := l) hw.toTiled.bounds.2.1 hno hd
  rw [norm_malloc_no_fit hw.toTiled hno hfit hlt]
  generalize hext : lacks (l ++ [b]) asize = ext at hx1 hx2 hl
  have hwords : ext / WSIZE * 4 = ext := by
    unfold WSIZE
    omega
  rcases extend_heap_served (ext / WSIZE) hw' (by unfold WSIZE; omega)
    (by unfold WSIZE; omega) (by omega) with
    ⟨-, hfail⟩ | ⟨l', f, h₁, hlf, hf, hfl, hok, hb, -, hs, hj₁⟩
  · left
    rw [hfail]
    rfl
  · right
    have hasize : asize ≤ total f + ext / WSIZE * 4 := by
      rw [hwords, ← hext, lacks_snoc]
      split
      · rename_i hu
        have hfne := hfl ⟨b, by simp, hu⟩
        rcases hf with rfl | ⟨x, rfl, -⟩
        · exact absurd rfl hfne
        · have hxb := congrArg List.getLast? hlf
          simp only [List.getLast?_append_of_ne_nil, ne_eq, List.cons_ne_nil, not_false_eq_true,
            List.getLast?_singleton, Option.some.injEq] at hxb
          subst hxb
          simp only [total_cons, total_nil]
          omega
      · omega
    obtain ⟨h', bs', hplace, hg, -, hjust, -⟩ := place_spec hs.wf h8 hd hasize
    have hbe : h₁.behind l' = h.behind l' := by
      unfold Heap.behind
      rw [hb]
      rfl
    refine ⟨h.behind l', h', bs', ?_, behind_pos h l', ?_, hjust (hj₁ hj')⟩
    · have hplace' : place h₁ (Heap.behind { h with end_ := h.behind l } l') asize = some h' := by
        rw [← hplace, hbe]
        rfl
      rw [hok, Option.bind_some, if_neg (behind_pos _ l'), hplace']
      rfl
    · have hst := hs.trans hg.toServed
      rw [hbe] at hg
      refine ⟨⟨hst.wf, ⟨hst.keeps.start, hst.keeps.block, hst.keeps.bytes⟩, hst.fmalloc,
        hst.TR, hst.Q_no⟩, hg.block, ?_⟩
      -- A used block there would have been kept by the growth of the heap.
      intro d hd hu
      have hd' : BlockAt h₁ (l' ++ [⟨total f + ext / WSIZE * 4, false⟩]) (h.behind l') d :=
        hs.keeps.block _ d hd hu (by simp)
      exact hg.fresh d hd' hu

/-- `norm_malloc` gives NULL when no block fits and `mem_sbrk` refuses. -/
theorem norm_malloc_null (hw : WellFormed h bs) (hj : JustAt h bs) (hd : 8 ∣ asize)
    (hlt : asize < 2 ^ 64) (hno : ∀ b ∈ bs, ¬ Fits asize b)
    (hgive : ¬(lacks bs asize % 2 ^ 32 < 2 ^ 31 ∧
      h.mem_brk + lacks bs asize % 2 ^ 32 ≤ h.mem_start_brk + MAX_HEAP)) :
    ∃ e, norm_malloc h asize = some (0, { h with end_ := e }) := by
  obtain ⟨e, -, hasks⟩ := norm_malloc_asks hw hj hlt hno
  obtain ⟨hx1, -, hx3⟩ := lacks_of_no_fit hw hd hno
  have hx4 : lacks bs asize < 2 ^ 64 := by
    unfold CHUNKSIZE at hx3
    omega
  have hrefuse : extend_heap { h with end_ := e } (lacks bs asize / WSIZE) =
      some (0, { h with end_ := e }) := extend_heap_refuses hx1 hx4 hgive
  refine ⟨e, ?_⟩
  rw [hasks, hrefuse]
  rfl

/-- What can be lacking for a request below 2^32 bytes is not cut short. -/
theorem not_cut_of_small (hw : WellFormed h bs) (hd : 8 ∣ asize)
    (hlt : asize < 2 ^ 32) : (∃ b ∈ bs, Fits asize b) ∨ ¬ CutShort h (lacks bs asize) := by
  by_cases hfit : ∃ b ∈ bs, Fits asize b
  · exact Or.inl hfit
  · right
    rintro ⟨hbig, -⟩
    have hx := (lacks_of_no_fit hw hd fun b hb hyes => hfit ⟨b, hb, hyes⟩).2.2
    unfold CHUNKSIZE at hx
    omega

/-- `norm_malloc` with `just` at a block, when a block fits or what is lacking is not cut
short: the heap cannot grow and only `end` moves, or a block is given out. -/
theorem norm_malloc_any (hw : WellFormed h bs) (hj : JustAt h bs) (h8 : 8 ≤ asize) (hd : 8 ∣ asize)
    (hlt : asize < 2 ^ 64) (hok : (∃ b ∈ bs, Fits asize b) ∨ ¬ CutShort h (lacks bs asize)) :
    (∃ e, norm_malloc h asize = some (0, { h with end_ := e })) ∨
    ∃ p h' bs', norm_malloc h asize = some (p, h') ∧ p ≠ 0 ∧
      Granted h h' bs bs' (fun _ => False) p asize ∧ JustAt h' bs' := by
  rcases next_fit_spec asize hw.toTiled hj with
    ⟨l, k, r, e, rfl, hk, hfit⟩ | ⟨hno, l, b, rfl, hfit⟩
  · right
    obtain ⟨h', bs', hrun, hg, hj'⟩ := norm_malloc_placed hw hfit h8 hd hk
    exact ⟨_, h', bs', hrun, behind_pos h l, hg, hj'⟩
  · have hcut : ¬ CutShort h (lacks (l ++ [b]) asize) := by
      refine hok.resolve_left ?_
      rintro ⟨d, hd, hfit⟩
      exact hno d hd hfit
    by_cases hsmall : lacks (l ++ [b]) asize < 2 ^ 31
    · exact (norm_malloc_grown hw hj (hno b (by simp)) hfit h8 hd hlt hsmall).imp
        (fun hr => ⟨_, hr⟩) id
    · left
      apply norm_malloc_null hw hj hd hlt hno
      rintro ⟨h1, h2⟩
      exact hcut ⟨by omega, h1, h2⟩

/-- `norm_malloc` for a request below 2^31. -/
theorem norm_malloc_spec (hw : WellFormed h bs) (hj : JustAt h bs) (h8 : 8 ≤ asize)
    (hd : 8 ∣ asize) (hlt : asize < 2 ^ 31) :
    (∃ e, norm_malloc h asize = some (0, { h with end_ := e })) ∨
    ∃ p h' bs', norm_malloc h asize = some (p, h') ∧ p ≠ 0 ∧
      Granted h h' bs bs' (fun _ => False) p asize ∧ JustAt h' bs' :=
  norm_malloc_any hw hj h8 hd (by omega) (not_cut_of_small hw hd (by omega))

end Norm

/-! ## Freeing -/

/-- A block that the caller holds: in use, and not the prologue. -/
def Live (h : Heap) (bs : List Block) (p n : Nat) : Prop :=
  ∃ l r, bs = l ++ ⟨n, true⟩ :: r ∧ l ≠ [] ∧ p = h.behind l

theorem Live.blockAt {h : Heap} {bs : List Block} {p n : Nat} (hp : Live h bs p n) :
    BlockAt h bs p ⟨n, true⟩ := by
  obtain ⟨l, r, he, -, hq⟩ := hp
  exact ⟨l, r, he, hq⟩

theorem live_iff {h : Heap} {bs : List Block} {p n : Nat} (hw : Tiled h bs) :
    Live h bs p n ↔ BlockAt h bs p ⟨n, true⟩ ∧ p ≠ h.behind [] := by
  constructor
  · rintro ⟨l, r, rfl, hl, rfl⟩
    refine ⟨⟨l, r, rfl, rfl⟩, ?_⟩
    obtain ⟨x, l', rfl⟩ := List.exists_cons_of_ne_nil hl
    have h8 : 8 ≤ x.size := Tiled.bounds (l := []) hw |>.1
    unfold Heap.behind
    simp only [total_cons, total_nil]
    omega
  · rintro ⟨⟨l, r, rfl, rfl⟩, hne⟩
    refine ⟨l, r, rfl, ?_, rfl⟩
    rintro rfl
    exact hne rfl

/-- A block that is not named stays live. -/
theorem Served.live {h h' : Heap} {bs bs' : List Block} {gone : Nat → Prop} {p n : Nat}
    (hs : Served h h' bs bs' gone) (hw : Tiled h bs) (hp : Live h bs p n) (hg : ¬ gone p) :
    Live h' bs' p n := by
  rw [live_iff hw] at hp
  rw [live_iff hs.wf.toTiled]
  refine ⟨hs.keeps.block p _ hp.1 rfl hg, ?_⟩
  have hb : h'.behind [] = h.behind [] := by
    unfold Heap.behind Heap.base
    rw [hs.keeps.start]
  rw [hb]
  exact hp.2

/-- Of the other free blocks only the one behind is no longer found where it was. -/
theorem Coalesced.freeAt {h h' : Heap} {l r l' f g r' : List Block} {n p k : Nat}
    (hc : Coalesced h h' l r n l' f g r') (hp : FreeAt h (l ++ ⟨n, false⟩ :: r) p k)
    (h1 : p ≠ h.behind l) (h2 : p ≠ h.behind l + n) :
    FreeAt h' (l' ++ ⟨total f + n + total g, false⟩ :: r') p k := by
  have hb := hc.edits.base
  obtain ⟨j, hk, hj⟩ := hp
  obtain ⟨s, rfl, hs⟩ := blockAt_iff.mp hj
  have hsplit : l ++ ⟨n, false⟩ :: r = l' ++ ((f ++ ⟨n, false⟩ :: g) ++ r') := by
    rw [hc.absorbs.left, hc.absorbs.right]
    simp
  have hbl : h.behind l = h.base + total l' + total f + 4 := by
    unfold Heap.behind
    rw [hc.absorbs.left, total_append, ← Nat.add_assoc]
  rw [hsplit, placed_append, placed_append, placed_append, List.mem_append, List.mem_append,
    List.mem_append] at hs
  rcases hs with hs | (hs | hs) | hs
  · refine ⟨j, hk, blockAt_iff.mpr ⟨s, rfl, ?_⟩⟩
    rw [hb, placed_append]
    exact List.mem_append_left _ hs
  · -- The block before has grown.
    have hfront : s = h.base + total l' ∧ j ≤ total f := by
      have hbd := placed_bounds hs
      rcases hc.absorbs.before with ⟨rfl, -⟩ | ⟨x, rfl, -⟩
      · simp [placed] at hs
      · simp only [placed, List.mem_singleton, Prod.mk.injEq] at hs
        simp only at hbd
        exact ⟨hs.1, by omega⟩
    refine ⟨total f + n + total g, by omega, l', r', rfl, ?_⟩
    unfold Heap.behind
    rw [hb, hfront.1]
  · exfalso
    rcases List.mem_cons.mp hs with hs | hs
    · cases hs
      exact h1 hbl.symm
    · rcases hc.absorbs.after with ⟨rfl, -⟩ | ⟨y, rfl, -⟩
      · simp [placed] at hs
      · simp only [placed, List.mem_singleton, Prod.mk.injEq] at hs
        apply h2
        rw [hbl, hs.1]
        omega
  · refine ⟨j, hk, blockAt_iff.mpr ⟨s, rfl, ?_⟩⟩
    rw [hb, placed_append, placed]
    rw [total_append, total_cons, ← Nat.add_assoc (total f)] at hs
    apply List.mem_append_right
    apply List.mem_cons_of_mem
    exact hs

/-- `coalesce` at a free block whose neighbours on both sides are spaced. -/
theorem coalesce_served {h : Heap} {l r : List Block} {n : Nat}
    (hw : Tiled h (l ++ ⟨n, false⟩ :: r)) (hl : l ≠ []) (hsl : Spaced l) (hsr : Spaced r) :
    ∃ q h' bs', coalesce h (h.behind l) = some (q, h') ∧
      Served h h' (l ++ ⟨n, false⟩ :: r) bs' (fun _ => False) ∧
      (JustAt h (l ++ ⟨n, false⟩ :: r) → JustAt h' bs') ∧
      ∀ q k, FreeAt h (l ++ ⟨n, false⟩ :: r) q k → q ≠ h.behind l → q ≠ h.behind l + n →
        FreeAt h' bs' q k := by
  obtain ⟨l', f, g, r', h', hc⟩ := coalesce_spec hw hl
  have hsplit : l ++ ⟨n, false⟩ :: r = l' ++ ((f ++ ⟨n, false⟩ :: g) ++ r') := by
    rw [hc.absorbs.left, hc.absorbs.right]
    simp
  have htot : total (f ++ ⟨n, false⟩ :: g) = total f + n + total g := by simp [Nat.add_assoc]
  have e : Edits h h' (h.base + total l') (total (f ++ ⟨n, false⟩ :: g)) := by
    rw [htot]
    exact hc.edits
  have hne := hc.nonempty
  have hsp := hc.absorbs.spaced hsl hsr ⟨total f + n + total g, false⟩
  have hjust := hc.just_at hw
  refine ⟨_, h', _, hc.runs, ⟨⟨?_, hsp⟩, ?_, hc.edits.fmalloc, hc.edits.TR, hc.edits.Q_no⟩, hjust, ?_⟩
  · rw [hsplit] at hw
    exact hw.replace (v := [⟨total f + n + total g, false⟩]) e (by simp [htot])
      ⟨hc.stands, trivial⟩ (hw.first_append hne _)
  · rw [hsplit]
    apply e.keeps (v := [⟨total f + n + total g, false⟩])
    · simp [htot]
    · -- Nothing in the merged stretch is in use.
      intro s b hs hu
      obtain ⟨l₁, r₁, he, -⟩ := mem_placed.mp hs
      have hb : b ∈ f ++ ⟨n, false⟩ :: g := by
        rw [he]
        simp
      rcases List.mem_append.mp hb with hb | hb
      · rw [hc.absorbs.free.1 b hb] at hu
        cases hu
      · rcases List.mem_cons.mp hb with rfl | hb
        · cases hu
        · rw [hc.absorbs.free.2 b hb] at hu
          cases hu
  · intro q k hq h1 h2
    exact hc.freeAt hq h1 h2

theorem mm_free_spec {h : Heap} {bs : List Block} {p n : Nat} (hw : WellFormed h bs)
    (hp : Live h bs p n) :
    ∃ h' bs', mm_free h p = some h' ∧ Served h h' bs bs' (fun q => q = p) ∧
      (JustAt h bs → JustAt h' bs') ∧
      ∀ q k, FreeAt h bs q k → q ≠ p + n → FreeAt h' bs' q k := by
  obtain ⟨l, r, rfl, hl, rfl⟩ := hp
  obtain ⟨h1, h2, h3, h4, h5⟩ := hw.toTiled.bounds
  simp only at h1 h2 h4 h5
  have hin : InHeap h (h.base + total l) n := ⟨by omega, by omega⟩
  have hput := put_free hin h1 h2 (by omega)
  have e : Edits h { h with contents := tagged h.contents (h.base + total l) ⟨n, false⟩ }
      (h.base + total l) (total [⟨n, true⟩]) := by
    apply Edits.contents
    exact agreeOff_tagged h.contents _ (b := ⟨n, false⟩) (by simp only; omega)
  have ht : Tiled { h with contents := tagged h.contents (h.base + total l) ⟨n, false⟩ }
      (l ++ ⟨n, false⟩ :: r) :=
    hw.toTiled.replace (m := [⟨n, true⟩]) (v := [⟨n, false⟩]) e rfl
      ⟨stands_free h1 h2 (by omega), trivial⟩ (hw.toTiled.first_append hl _)
  have hk := e.keeps (r := r) (v := [⟨n, false⟩]) (g := fun q => q = h.behind l) rfl (by
    intro s b hs _
    simp only [placed, List.mem_singleton, Prod.mk.injEq] at hs
    rw [hs.1]
    rfl)
  obtain ⟨q, h', bs', hrun, hs, hj, hfr⟩ :=
    coalesce_served ht hl hw.spaced.left hw.spaced.right.tail
  refine ⟨h', bs', ?_, ⟨hs.wf, ?_, hs.fmalloc, hs.TR, hs.Q_no⟩, ?_, ?_⟩
  · unfold mm_free
    rw [if_neg (behind_pos h l), show HDRP (h.behind l) = h.base + total l from rfl,
      hw.toTiled.header.size]
    show (PUT_TAGS h (h.base + total l + 4) (PACK n 0)).bind (fun e =>
      (coalesce e (h.behind l)).bind fun v => some v.2) = some h'
    rw [hput, Option.bind_some]
    have hrun' : coalesce { h with contents := tagged h.contents (h.base + total l) ⟨n, false⟩ }
        (h.behind l) = some (q, h') := hrun
    rw [hrun']
    rfl
  · exact hk.trans (hs.keeps.weaken fun _ hf => hf.elim)
  · rintro ⟨b, hjb⟩
    apply hj
    exact blockAt_relaid (m := [⟨n, true⟩]) (v := [⟨n, false⟩]) e.base rfl (by simp) hw.toTiled hjb
      (by simpa using blockAt_not_inside hjb)
  · intro g k hg hne
    have hout := hg.outside hw.toTiled ⟨l, r, rfl, rfl⟩
    have hg' := freeAt_outside (m := [⟨n, true⟩]) (v := [⟨n, false⟩]) e.base rfl hw.toTiled hg
      (by simpa using hout)
    apply hfr g k hg' _ hne
    rintro rfl
    have hself : h.behind l < h.behind l ∨ h.behind l + n ≤ h.behind l := hout
    omega

/-! ## Making a block smaller -/

/-- The first bytes of the payload at `q` are those that were at `p`. -/
def Copied (c c' : Contents) (p q n : Nat) : Prop := ∀ i < n, c' (q + i) = c (p + i)

/-- The contents after the writes of `shrink`. -/
theorem shrink_writes (c : Contents) {s asize rest : Nat} (h8 : 8 ≤ asize) (hr : 8 ≤ rest) :
    store (tagged (store c (s + (asize + rest) - 4) 4 (Block.mk rest false).tag) s ⟨asize, true⟩)
      (s + asize) 4 (Block.mk rest false).tag = laid c s asize rest := by
  -- The footer of the free block is written first; it moves past the three others.
  have hF : s + (asize + rest) - 4 = s + asize + rest - 4 := by omega
  unfold laid tagged
  simp only
  rw [if_neg (by omega), hF,
    store_comm c (a := s + asize + rest - 4) (n := 4) (b := s) (m := 4) (by omega),
    store_comm _ (a := s + asize + rest - 4) (n := 4) (b := s + asize - 4) (m := 4) (by omega),
    store_comm _ (a := s + asize + rest - 4) (n := 4) (b := s + asize) (m := 4) (by omega)]

/-- The writes of `shrink`, up to its `coalesce`. -/
theorem shrink_eq {h : Heap} {s asize rest : Nat} (hs : HasTag h s ⟨asize + rest, true⟩)
    (hin : InHeap h s (asize + rest)) (h8 : 8 ≤ asize) (hd : 8 ∣ asize) (hr : 8 ≤ rest)
    (hdr : 8 ∣ rest) (hlt : asize + rest < MAX_HEAP) :
    shrink h (s + 4) (asize + rest) asize =
      (coalesce { h with contents := laid h.contents s asize rest } (s + asize + 4)).bind
        fun v => some (s + 4, v.2) := by
  obtain ⟨hin1, hin2⟩ := hin
  have hlt' : asize + rest < 2 ^ 64 := by
    unfold MAX_HEAP at hlt
    omega
  have hsub : sub (asize + rest) asize = rest := by
    rw [sub_eq (by omega) hlt']
    omega
  unfold shrink
  rw [FTRP_at hs (by simp only; omega), hsub, pack_free hdr]
  show (PUT h (s + (asize + rest) - 4) _).bind (fun h1 => (PUT_TAGS h1 (s + 4) (PACK asize 1)).bind
    fun h2 => (NEXT_BLKP h2 (s + 4)).bind fun p => (PUT h2 (HDRP p) (Block.mk rest false).tag).bind
    fun h3 => (coalesce h3 p).bind fun v => some (s + 4, v.2)) = _
  rw [PUT_eq ⟨by omega, by omega⟩, Option.bind_some]
  have hin' : InHeap (h.put (s + (asize + rest) - 4) (Block.mk rest false).tag) s asize :=
    ⟨hin1, show s + asize ≤ h.mem_brk by omega⟩
  have hlast : PUT { h.put (s + (asize + rest) - 4) (Block.mk rest false).tag with
      contents := tagged (h.put (s + (asize + rest) - 4) (Block.mk rest false).tag).contents s
        ⟨asize, true⟩ } (s + asize) (Block.mk rest false).tag =
      some { h with contents := laid h.contents s asize rest } := by
    rw [← shrink_writes h.contents (s := s) h8 hr]
    exact PUT_eq ⟨show h.mem_start_brk ≤ s + asize by omega,
      show s + asize + 4 ≤ h.mem_brk by omega⟩
  rw [put_used hin' h8 hd (by omega), Option.bind_some, next_of_put_used hin' h8 hd (by omega),
    Option.bind_some, HDRP_at, hlast, Option.bind_some]

theorem shrink_spec {h : Heap} {bs : List Block} {p old asize : Nat} (hw : WellFormed h bs)
    (hp : Live h bs p old) (h8 : 8 ≤ asize) (hd : 8 ∣ asize) (hlt : asize < old) :
    ∃ h' bs', shrink h p old asize = some (p, h') ∧
      Granted h h' bs bs' (fun q => q = p) p asize ∧
      Copied h.contents h'.contents p p (asize - 8) ∧ (JustAt h bs → JustAt h' bs') ∧
      ∀ q k, FreeAt h bs q k → q ≠ p + old → FreeAt h' bs' q k := by
  obtain ⟨l, r, rfl, hl, rfl⟩ := hp
  obtain ⟨h1, h2, h3, h4, h5⟩ := hw.toTiled.bounds
  simp only at h1 h2 h4 h5
  obtain ⟨rest, rfl⟩ : ∃ rest, old = asize + rest := ⟨old - asize, by omega⟩
  have hdr : 8 ∣ rest := (Nat.dvd_add_right hd).mp h2
  have hr8 : 8 ≤ rest := by omega
  generalize ht : h.base + total l = s at *
  have hb : h.behind l = s + 4 := by rw [← ht]; rfl
  -- The heap after the four writes.
  have hoff := agreeOff_laid h.contents s h8 hdr
  have e : Edits h { h with contents := laid h.contents s asize rest } (h.base + total l)
      (total [⟨asize + rest, true⟩]) := by
    rw [ht]
    exact Edits.contents hoff
  have hti : Tiled { h with contents := laid h.contents s asize rest }
      ((l ++ [⟨asize, true⟩]) ++ ⟨rest, false⟩ :: r) := by
    have := hw.toTiled.replace (m := [⟨asize + rest, true⟩])
      (v := [⟨asize, true⟩, ⟨rest, false⟩]) e (by simp)
      (by
        rw [ht]
        have htl := tiles_laid h.contents s h8 hd hdr (by unfold MAX_HEAP at h5; omega)
        unfold leftover at htl
        rw [if_neg (by omega)] at htl
        exact htl)
      (hw.toTiled.first_append hl _)
    simpa using this
  have hk := e.keeps (r := r) (v := [⟨asize, true⟩, ⟨rest, false⟩])
    (g := fun q => q = h.behind l) (by simp) (by
      intro t b hs _
      simp only [placed, List.mem_singleton, Prod.mk.injEq] at hs
      rw [hs.1]
      rfl)
  have hsl : Spaced (l ++ [⟨asize, true⟩]) := hw.spaced.left.insert List.isChain_nil rfl
  obtain ⟨q, h', bs', hrun, hs, hj, hfr⟩ :=
    coalesce_served hti (by simp) hsl hw.spaced.right.tail
  have hblock : BlockAt { h with contents := laid h.contents s asize rest }
      ((l ++ [⟨asize, true⟩]) ++ ⟨rest, false⟩ :: r) (h.behind l) ⟨asize, true⟩ :=
    ⟨l, ⟨rest, false⟩ :: r, by simp, rfl⟩
  refine ⟨h', bs', ?_, ⟨⟨hs.wf, ?_, hs.fmalloc, hs.TR, hs.Q_no⟩, ⟨asize, Nat.le_refl _,
    hs.keeps.block _ _ hblock rfl (by simp)⟩, fun _ _ _ => rfl⟩, ?_, ?_, ?_⟩
  · have hs0 : HasTag h s ⟨asize + rest, true⟩ := by
      rw [← ht]
      exact hw.toTiled.header
    rw [hb, shrink_eq hs0 ⟨by omega, by omega⟩ h8 hd hr8 hdr (by omega)]
    have hrun' : coalesce { h with contents := laid h.contents s asize rest } (s + asize + 4) =
        some (q, h') := by
      rw [← hrun]
      congr 1
      unfold Heap.behind
      rw [base_snoc]
      show s + asize + 4 = h.base + total l + asize + 4
      rw [ht]
    rw [hrun']
    rfl
  · apply hk.trans
    simpa using hs.keeps.weaken fun _ hf => hf.elim
  · intro i hi
    have hag := hs.keeps.bytes _ _ hblock rfl (by simp) (h.behind l + i)
      (by simp only [hb]; omega) (by simp only [hb]; omega)
    rw [← hag]
    exact laid_inside _ (by omega) (by omega)
  · rintro ⟨b, hjb⟩
    apply hj
    rw [List.append_assoc]
    exact blockAt_relaid (m := [⟨asize + rest, true⟩]) (v := [⟨asize, true⟩, ⟨rest, false⟩])
      e.base (by simp) (by simp) hw.toTiled hjb (by simpa using blockAt_not_inside hjb)
  · intro g k hg hne
    have hout := hg.outside hw.toTiled ⟨l, r, rfl, rfl⟩
    have hg' := freeAt_outside (m := [⟨asize + rest, true⟩])
      (v := [⟨asize, true⟩, ⟨rest, false⟩]) e.base (by simp) hw.toTiled hg (by simpa using hout)
    have hbe : Heap.behind { h with contents := laid h.contents s asize rest }
        (l ++ [⟨asize, true⟩]) = h.behind l + asize := behind_append _ _ _
    apply hfr g k (by simpa using hg')
    · rw [hbe]
      omega
    · rw [hbe]
      omega

end ics_labs.mm
