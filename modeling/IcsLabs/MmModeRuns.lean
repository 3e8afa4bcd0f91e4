-- The trace modes over whole runs: when every block that a mode places goes to the start
-- of a free block with room for it, and every block that mode 1 grows has the room.
import IcsLabs.MmModeCalls
import IcsLabs.MmRuns

open ics_labs.byte_words ics_labs.boundary_tags ics_labs.runs

namespace ics_labs.mm

/-! ## What a request has to keep to -/

/-- `bp` is the start of a free block of at least `n` bytes. -/
def IsFree (h : Heap) (bp n : Nat) : Prop := bp ≠ 0 ∧ AtBlock h bp ∧ fits h bp n = some true

/-- In a trace mode, the request places its block at the start of a free block with room
for it, and in mode 1 a block grows only into a free block with room. -/
structure Serves (h : Heap) (c : Call) : Prop where
  places : ∀ e size, asks h c = some (e, size) → size ≠ 0 → InMode e → size = expected e →
    ∃ q g, chosen e (roundUp size) = some (q, g) ∧ IsFree g q (roundUp size)
  grows : ∀ p size old, c = .realloc p size → h.TR = 1 → p ≠ 0 → size ≠ 0 → size ≤ QR1 →
    GET_SIZE h (HDRP p) = some old → old < roundUp size →
    ∃ q, NEXT_BLKP h p = some q ∧ IsFree h q (roundUp size - old)

/-- The caller keeps to the pointers that it holds, or gives NULL, and to their bytes. -/
def Allowed (w : World) : Act → Prop
  | .call (.malloc _) => True
  | .call (.free p) => p = 0 ∨ p ∈ w.live.map Prod.fst
  | .call (.realloc p _) => p = 0 ∨ p ∈ w.live.map Prod.fst
  | .write a _ => ∃ e ∈ w.live, e.1 ≤ a ∧ a < e.1 + e.2

instance (w : World) (a : Act) : Decidable (Allowed w a) :=
  match a with
  | .call (.malloc _) => inferInstanceAs (Decidable True)
  | .call (.free p) => inferInstanceAs (Decidable (p = 0 ∨ p ∈ w.live.map Prod.fst))
  | .call (.realloc p _) => inferInstanceAs (Decidable (p = 0 ∨ p ∈ w.live.map Prod.fst))
  | .write a _ => inferInstanceAs (Decidable (∃ e ∈ w.live, e.1 ≤ a ∧ a < e.1 + e.2))

/-- The request spares the rows of the mode, and finds a free block where the mode does not
look for one. -/
def Careful (w : World) : Act → Prop
  | .call (.malloc size) => AsksWell w.heap size
  | .call (.free p) => p ≠ 0 → EndsApart w.heap p
  | .call (.realloc p size) =>
    if p = 0 then AsksWell w.heap size
    else if size = 0 then EndsApart w.heap p
    else ReallocsWell w.heap p size
  | .write _ _ => True

instance (w : World) (a : Act) : Decidable (Careful w a) :=
  match a with
  | .call (.malloc size) => inferInstanceAs (Decidable (AsksWell w.heap size))
  | .call (.free p) => inferInstanceAs (Decidable (p ≠ 0 → EndsApart w.heap p))
  | .call (.realloc p size) => inferInstanceAs (Decidable (if p = 0 then AsksWell w.heap size
      else if size = 0 then EndsApart w.heap p else ReallocsWell w.heap p size))
  | .write _ _ => inferInstanceAs (Decidable True)

/-- In a trace mode, what the step places and grows is right. -/
def ServesStep (w : World) : Act → Prop
  | .call c => Serves w.heap c
  | .write _ _ => True

/-! ## One step -/

/-- The heap is well formed, the caller's blocks are in it, and the rows go on in free
blocks. -/
def Held (w : World) : Prop := ∃ bs, Good w bs ∧ Rows w.heap bs

section Step

variable {w w' : World} {bs bs' : List Block} {h : Heap} {p q n old size : Nat}

theorem FreeAt.isFree (hs : FreeAt h bs q n) (hw : Tiled h bs) : IsFree h q n := by
  obtain ⟨k, hk, hb⟩ := hs
  refine ⟨?_, (atBlock_iff hw).mpr ⟨_, hb⟩, ?_⟩
  · obtain ⟨l, -, -, rfl⟩ := hb
    exact behind_pos h l
  · obtain ⟨l, r, rfl, rfl⟩ := hb
    rw [fits_eq hw.header]
    simpa [Fits] using hk

theorem Good.statics (g : Good w bs) (hf : w.heap.fmalloc = false) (j d t : Nat) (c : Int) :
    Good ⟨{ w.heap with just := j, end_ := d, TR := t, Q_no := c }, w.live⟩ bs :=
  ⟨(g.wf.cursors j d).modes w.heap.fmalloc t c, g.nodup, g.live, fun h1 => by
    change w.heap.fmalloc = true at h1
    rw [hf] at h1
    cases h1⟩

theorem Good.drop (g : Good w bs) (p : Nat) : Good ⟨w.heap, mm.drop p w.live⟩ bs := by
  refine ⟨g.wf, g.nodup.sublist ((drop_sublist p _).map _), ?_, ?_⟩
  · intro e he
    exact g.live e ((drop_sublist p _).subset he)
  · intro hf
    obtain ⟨h1, h2⟩ := g.first hf
    refine ⟨?_, h2⟩
    simp only
    rw [h1]
    rfl

/-- A live block is none of the prologue. -/
theorem Good.not_prologue (g : Good w bs) (hp : Live w.heap bs p old) :
    ¬ w.heap.behind [] = p := fun he => ((live_iff g.wf.toTiled).mp hp).2 he.symm

/-- A block that is given out joins those that the caller keeps. -/
theorem Good.gives {gone : Nat → Prop} {r : Option (Nat × Heap)} (g : Good w bs)
    (hf : w.heap.fmalloc = false) (hg : Gives w.heap bs gone (roundUp size) r)
    (h64 : size < 2 ^ 64 - 15) (hn : ¬ gone (w.heap.behind [])) {live' : List (Nat × Nat)}
    (hsub : live'.Sublist w.live) (hout : ∀ e ∈ live', ¬ gone e.1) :
    ∃ q h', r = some (q, h') ∧ q ≠ 0 ∧ Held ⟨h', (q, size) :: live'⟩ := by
  obtain ⟨q, j, d, t, c, h', bs', hr, hq, hgr, hrows⟩ := hg
  exact ⟨q, h', hr, hq, bs', (g.statics hf j d t c).granted hgr hn hsub hout
    (hgr.fmalloc.trans hf) (roundUp_spec h64).1, hrows⟩

/-- What a request keeps to, the caller's next world included. -/
theorem Good.outcome {c : Call} {r : Option (Nat × Heap)} (g : Good w bs)
    (hf : w.heap.fmalloc = false) (ho : Outcome w.heap bs c r)
    (hn : ¬ c.names (w.heap.behind [])) {live' : List (Nat × Nat)} (hsub : live'.Sublist w.live)
    (hout : ∀ e ∈ live', ¬ c.names e.1) :
    (∃ q h', r = some (q, h') ∧ q ≠ 0 ∧ Held ⟨h', (q, c.size) :: live'⟩) ∨
    Searches w.heap c ∧ Ends (fun v => Over v.2) r ∧ (JustAt w.heap bs → c.size < 2 ^ 31 - 16 →
      (∃ q h', r = some (q, h') ∧ q ≠ 0 ∧ Held ⟨h', (q, c.size) :: live'⟩) ∨
      ∃ h', r = some (0, h') ∧ Held ⟨h', w.live⟩) := by
  rcases ho with ⟨h64, hg⟩ | ⟨hs, hover, hcur⟩
  · exact Or.inl (g.gives hf hg h64 hn hsub hout)
  · refine Or.inr ⟨hs, hover, fun hj hlt => ?_⟩
    rcases hcur hj hlt with hg | ⟨d, t, n, hr, ht⟩
    · exact Or.inl (g.gives hf hg (by omega) hn hsub hout)
    · exact Or.inr ⟨_, hr, bs, g.statics hf w.heap.just d t n, rows_none ht⟩

/-- `mm_malloc` in a run, with the pointers that the caller keeps. -/
theorem Good.mallocs (g : Good w bs) (hr : Rows w.heap bs) (hs : size ≠ 0)
    (ha : AsksWell w.heap size) {live' : List (Nat × Nat)} (hsub : live'.Sublist w.live) :
    (∃ q h', mm_malloc w.heap size = some (q, h') ∧ q ≠ 0 ∧ Held ⟨h', (q, size) :: live'⟩) ∨
    Searches w.heap (.malloc size) ∧ Ends (fun v => Over v.2) (mm_malloc w.heap size) ∧
      (JustAt w.heap bs → size < 2 ^ 31 - 16 →
        (∃ q h', mm_malloc w.heap size = some (q, h') ∧ q ≠ 0 ∧ Held ⟨h', (q, size) :: live'⟩) ∨
        ∃ h', mm_malloc w.heap size = some (0, h') ∧ Held ⟨h', w.live⟩) := by
  cases hf : w.heap.fmalloc with
  | false =>
    exact g.outcome hf (mm_malloc_outcome g.wf hr hf hs ha) (by simp [Call.names]) hsub
      (by simp [Call.names])
  | true =>
    obtain ⟨-, rfl, hT, hQ⟩ := g.first hf
    by_cases ht : size = TR1 ∨ size = TR2 ∨ size = TR3
    · left
      have h64 : size < 2 ^ 64 - 15 := by
        unfold TR1 TR2 TR3 at ht
        omega
      obtain ⟨q, t, n, h', bs', hrun, hq, hg, hr'⟩ := mm_malloc_chooses g.wf hf hQ ht
      exact ⟨q, h', hrun, hq, bs', (g.modes t n).granted hg (by simp) hsub (by simp) hg.fmalloc
        (roundUp_spec h64).1, hr'⟩
    · right
      push Not at ht
      have g' := g.modes w.heap.TR w.heap.Q_no
      have ho : Over { w.heap with fmalloc := false } := ⟨rfl, by simp [hT]⟩
      have hm : mm_malloc w.heap size = mm_malloc { w.heap with fmalloc := false } size :=
        mm_malloc_first hf hs ht.1 ht.2.1 ht.2.2
      have hout : Outcome { w.heap with fmalloc := false } [prologue, ⟨4096, false⟩] (.malloc size)
          (mm_malloc { w.heap with fmalloc := false } size) :=
        mm_malloc_outcome g'.wf ho.rows rfl hs fun hmode => absurd hmode.2 ho.2
      have hby : ¬ ByMode w.heap size := by
        rintro (⟨hm, -⟩ | ⟨-, h1⟩)
        · have := hm.1
          rw [hf] at this
          cases this
        · omega
      rw [hm]
      refine ⟨⟨w.heap, rfl, hs, hby⟩, mm_malloc_over ho size, fun hj hlt => ?_⟩
      rcases g'.outcome rfl hout (by simp [Call.names]) hsub (by simp [Call.names]) with
        hgives | ⟨-, -, hcur⟩
      · exact Or.inl hgives
      · exact hcur hj hlt

/-- Where the caller is after a request that may give out a block. -/
theorem goes_on {r : Option (Nat × Heap)} {live' live'' : List (Nat × Nat)}
    (hsub : (∃ q h', r = some (q, h') ∧ q ≠ 0 ∧ Held ⟨h', (q, size) :: live'⟩) ∨
      ∃ h', r = some (0, h') ∧ Held ⟨h', live''⟩) :
    ∃ w', (r.bind fun v => some (⟨v.2, if v.1 = 0 then live'' else (v.1, size) :: live'⟩ : World)) =
      some w' ∧ Held w' := by
  rcases hsub with ⟨q, h', rfl, hq, hheld⟩ | ⟨h', rfl, hheld⟩
  · refine ⟨_, rfl, ?_⟩
    simp only
    rw [if_neg hq]
    exact hheld
  · exact ⟨_, rfl, hheld⟩

theorem over_behind {r : Option (Nat × Heap)} {f : Nat × Heap → World} (hf : ∀ v, (f v).heap = v.2)
    (hr : Ends (fun v => Over v.2) r) :
    Ends (fun w' => Over w'.heap) (r.bind fun v => some (f v)) := by
  refine ends_bind hr fun v hv => ends_some ?_
  rw [hf]
  exact hv

/-- A block is freed. -/
theorem Good.frees (g : Good w bs) (hr : Rows w.heap bs) (hp : Live w.heap bs p old)
    (hf : w.heap.fmalloc = false) (ha : EndsApart w.heap p) :
    ∃ h', mm_free w.heap p = some h' ∧ Held ⟨h', mm.drop p w.live⟩ := by
  obtain ⟨h', bs', hrun, hs, hrows⟩ := mm_free_rows g.wf hr hp ha
  exact ⟨h', hrun, bs', g.served hs (drop_sublist p _) not_mem_drop (hs.fmalloc.trans hf), hrows⟩

/-- A careful step keeps the world well, or it comes to `norm_malloc` and no mode is active
behind it. Then it keeps the world well if the cursor is at a block. -/
theorem held_call {c : Call} (hP : Held w) (hal : Allowed w (.call c)) (hc : Careful w (.call c)) :
    (∃ w', w.step (.call c) = some w' ∧ Held w') ∨
    Ends (fun w' => Over w'.heap) (w.step (.call c)) ∧ (c.size < 2 ^ 31 - 16 →
      (Searches w.heap c → CursorFits w.heap) → ∃ w', w.step (.call c) = some w' ∧ Held w') := by
  obtain ⟨bs, g, hr⟩ := hP
  cases c with
  | malloc size =>
    by_cases hs : size = 0
    · subst hs
      exact Or.inl ⟨w, rfl, bs, g, hr⟩
    · rcases g.mallocs hr hs hc (List.Sublist.refl _) with hgives | ⟨hse, hover, hcur⟩
      · exact Or.inl (goes_on (Or.inl hgives))
      · refine Or.inr ⟨over_behind (fun _ => rfl) hover, fun hlt hfits => ?_⟩
        exact goes_on (hcur ((hfits hse).justAt g.wf.toTiled) hlt)
  | free p =>
    left
    rcases hal with rfl | hp
    · exact ⟨_, rfl, bs, g.drop 0, hr⟩
    · obtain ⟨⟨k, hk⟩, hf⟩ := g.holds hp
      obtain ⟨h', hrun, hheld⟩ := g.frees hr hk hf (hc hk.ne_zero)
      refine ⟨_, ?_, hheld⟩
      show (mm_free w.heap p).bind (fun h => some (⟨h, mm.drop p w.live⟩ : World)) = _
      rw [hrun]
      rfl
  | realloc p size =>
    have hstep : w.step (.call (.realloc p size)) = (mm_realloc w.heap p size).bind fun v =>
        some (⟨v.2, if size = 0 then mm.drop p w.live else if v.1 = 0 then w.live
          else (v.1, size) :: mm.drop p w.live⟩ : World) := rfl
    rw [hstep]
    by_cases hp0 : p = 0
    · -- `mm_realloc` of NULL is `mm_malloc`.
      subst hp0
      have hm : mm_realloc w.heap 0 size = mm_malloc w.heap size := if_pos rfl
      have ha : AsksWell w.heap size := hc
      rw [hm]
      by_cases hs : size = 0
      · subst hs
        exact Or.inl ⟨_, rfl, bs, g.drop 0, hr⟩
      · simp only [if_neg hs]
        rcases g.mallocs hr hs ha (drop_sublist 0 _) with hgives | ⟨⟨e, he, hse⟩, hover, hcur⟩
        · exact Or.inl (goes_on (Or.inl hgives))
        · refine Or.inr ⟨over_behind (fun _ => rfl) hover, fun hlt hfits => ?_⟩
          cases he
          exact goes_on (hcur ((hfits ⟨w.heap, rfl, hse⟩).justAt g.wf.toTiled) hlt)
    · obtain ⟨⟨k, hk⟩, hf⟩ := g.holds (hal.resolve_left hp0)
      change if p = 0 then _ else if size = 0 then _ else _ at hc
      rw [if_neg hp0] at hc
      by_cases hs : size = 0
      · left
        subst hs
        rw [if_pos rfl] at hc
        obtain ⟨h', hrun, hheld⟩ := g.frees hr hk hf hc
        refine ⟨_, ?_, hheld⟩
        rw [mm_realloc_zero hk, hrun]
        rfl
      · rw [if_neg hs] at hc
        simp only [if_neg hs]
        by_cases h64 : size < 2 ^ 64 - 15
        · have ho := mm_realloc_outcome g.wf hr hf hk hs h64 hc
          rcases g.outcome hf ho (g.not_prologue hk) (drop_sublist p _) not_mem_drop with
            hgives | ⟨hse, hover, hcur⟩
          · exact Or.inl (goes_on (Or.inl hgives))
          · refine Or.inr ⟨over_behind (fun _ => rfl) hover, fun hlt hfits => ?_⟩
            exact goes_on (hcur ((hfits hse).justAt g.wf.toTiled) hlt)
        · right
          have ho : Over w.heap := ⟨hf, fun hT => h64 (hc.1 ⟨hf, hT⟩)⟩
          refine ⟨over_behind (fun _ => rfl) (mm_realloc_over ho p size), fun hlt _ => ?_⟩
          change size < 2 ^ 31 - 16 at hlt
          omega

/-- Where no mode is active, none becomes active. -/
theorem over_step {a : Act} (ho : Over w.heap) : Ends (fun w' => Over w'.heap) (w.step a) := by
  cases a with
  | write a b => exact ends_some ho
  | call c =>
    cases c with
    | malloc size => exact over_behind (fun _ => rfl) (mm_malloc_over ho size)
    | free p => exact ends_bind (mm_free_over ho p) fun _ hg => ends_some hg
    | realloc p size => exact over_behind (fun _ => rfl) (mm_realloc_over ho p size)

theorem held_step {a : Act} (hP : Held w) (hal : Allowed w a) (hc : Careful w a)
    (hs : w.step a = some w') : Over w'.heap ∨ Held w' := by
  cases a with
  | write a b =>
    cases hs
    obtain ⟨bs, g, hr⟩ := hP
    exact Or.inr ⟨bs, g.write hal, hr.kept rfl rfl rfl fun _ _ hfr => hfr⟩
  | call c =>
    rcases held_call hP hal hc with ⟨v, hv, hheld⟩ | ⟨hover, -⟩
    · rw [hv] at hs
      cases hs
      exact Or.inr hheld
    · exact Or.inl (hover w' hs)

/-- A careful request that comes to `mm_malloc` in a mode asks well. -/
theorem asks_well {c : Call} {e : Heap} (hc : Careful w (.call c))
    (he : asks w.heap c = some (e, size)) (hm : InMode e) : e = w.heap ∧ AsksWell w.heap size := by
  cases c with
  | malloc n =>
    cases he
    exact ⟨rfl, hc⟩
  | free p => cases he
  | realloc p n =>
    change (if p = 0 then _ else if n = 0 then _ else _) at hc
    unfold asks at he
    simp only at he
    by_cases hp : p = 0
    · rw [if_pos hp] at hc he
      cases he
      exact ⟨rfl, hc⟩
    · rw [if_neg hp] at hc he
      by_cases hn : n = 0
      · rw [if_pos hn] at he
        cases he
      · rw [if_neg hn] at hc he
        obtain ⟨old, hold, he⟩ := Option.bind_eq_some_iff.mp he
        have hcase := hc.2 old hold
        by_cases hle : roundUp n ≤ old
        · rw [if_pos hle] at he
          cases he
        · rw [if_neg hle] at he
          rw [if_neg (by omega), if_neg (by omega)] at hcase
          by_cases hT : w.heap.TR = 1
          · rw [if_pos hT] at he
            split at he
            · -- The mode is over before this call.
              cases he
              have := hm.2
              simp at this
            · cases he
          · rw [if_neg hT] at he hcase
            split at he
            · cases he
            · rename_i hin
              cases he
              exact ⟨rfl, (hcase.2 (by simpa using hin)).1⟩

/-- A careful request is served well. -/
theorem held_serves {c : Call} (hP : Held w) (hal : Allowed w (.call c))
    (hc : Careful w (.call c)) : Serves w.heap c := by
  obtain ⟨bs, g, hr⟩ := hP
  refine ⟨?_, ?_⟩
  · intro e size he h0 hm hq
    obtain ⟨rfl, hask⟩ := asks_well hc he hm
    obtain ⟨q, e', h', bs', hp⟩ := mode_placed g.wf hr hm hq hask
    refine ⟨q, e', hp.chosen, ?_⟩
    have hfree := hp.free
    obtain ⟨j, d, n, rfl⟩ := hp.same
    exact hfree.isFree ((g.wf.cursors j d).modes w.heap.fmalloc w.heap.TR n).toTiled
  · rintro p size old rfl hT hp0 hs hsize hold hlt
    obtain ⟨⟨k, hk⟩, hf⟩ := g.holds (hal.resolve_left hp0)
    have hko : k = old := by
      have := hk.get_size g.wf.toTiled
      rw [hold] at this
      exact (Option.some.inj this).symm
    subst hko
    change (if p = 0 then _ else if size = 0 then _ else _) at hc
    rw [if_neg hp0, if_neg hs] at hc
    have hcase := hc.2 k hold
    rw [if_neg (by omega), if_neg (by omega), if_pos hT] at hcase
    have h64 : roundUp size < 2 ^ 64 := by
      unfold QR1 at hsize
      have := (roundUp_spec (n := size) (by omega)).2
      omega
    obtain ⟨hnext, hfree, -⟩ :=
      grow_one_spec g.wf hk hT hsize hlt h64 (roundUp_dvd size) (hcase hsize)
    exact ⟨_, hnext, hfree.isFree g.wf.toTiled⟩

theorem asks_heap {h e : Heap} {c : Call} (he : asks h c = some (e, size)) : e = h ∨ e.TR = 0 := by
  cases c with
  | malloc n =>
    cases he
    exact Or.inl rfl
  | free p => cases he
  | realloc p n =>
    unfold asks at he
    simp only at he
    split at he
    · cases he
      exact Or.inl rfl
    · split at he
      · cases he
      · obtain ⟨old, -, he⟩ := Option.bind_eq_some_iff.mp he
        split at he
        · cases he
        · split at he
          · split at he
            · cases he
              exact Or.inr rfl
            · cases he
          · split at he
            · cases he
            · cases he
              exact Or.inl rfl

/-- Where no mode is active, none places or grows a block. -/
theorem over_serves {h : Heap} (ho : Over h) (c : Call) : Serves h c := by
  refine ⟨?_, fun p size old _ hT => absurd (Or.inl hT) ho.2⟩
  intro e size he _ hm _
  rcases asks_heap he with rfl | h0
  · exact absurd hm.2 ho.2
  · have := hm.2
    omega

end Step

/-- The world behind a successful `mm_init`. -/
theorem held_init {h₀ h : Heap} (hf : Fresh h₀) (hi : mm_init h₀ = some (0, h)) : Held ⟨h, []⟩ := by
  obtain ⟨g, -⟩ := good_init hf hi
  have hT : h.TR = 0 := g.TR
  exact ⟨_, g.toGood, rows_none (by simp [hT])⟩

/-! ## The law of the modes -/

/-- In every run of careful steps, a trace mode places its blocks at the start of free
blocks with room for them, and mode 1 grows a block only into a free one with room. -/
theorem a_mode_places_in_free_blocks {h₀ h : Heap} (hf : Fresh h₀)
    (hi : mm_init h₀ = some (0, h)) (acts : List Act)
    (hC : Along World.step (fun w a => Allowed w a ∧ Careful w a) ⟨h, []⟩ acts) :
    Along World.step ServesStep ⟨h, []⟩ acts := by
  have hstep : ∀ (w : World) (a : Act) (w' : World), (Over w.heap ∨ Held w) →
      Allowed w a ∧ Careful w a → w.step a = some w' → Over w'.heap ∨ Held w' := by
    rintro w a w' (ho | hh) ⟨hal, hc⟩ hs
    · exact Or.inl (over_step ho w' hs)
    · exact held_step hh hal hc hs
  intro js a ks w hjs hw
  have hat := hC js a ks w hjs hw
  have hP : Over w.heap ∨ Held w := by
    subst hjs
    exact exec_invariant hstep (Or.inr (held_init hf hi)) hC.left hw
  cases a with
  | write a b => trivial
  | call c =>
    rcases hP with ho | hh
    · exact over_serves ho c
    · exact held_serves hh hat.1 hat.2

/-- In mode 1 a block of 16 bytes is placed, and then the first block grows into the free
one behind it. -/
def growsFreely : List Act :=
  [.call (.malloc 4096), .call (.malloc 16), .call (.realloc 4160 5000)]

theorem a_first_block_grows_freely : Along World.step ServesStep ⟨started, []⟩ growsFreely := by
  apply a_mode_places_in_free_blocks emptyHeap_fresh mm_init_started
  apply along_of_check
  decide +kernel

/-- With a third block of 16 bytes behind the first block, mode 1 grows the first block into
a block in use. -/
theorem mode_one_grows_into_a_used_block : ¬ ∀ (h₀ h : Heap) (acts : List Act), Fresh h₀ →
    mm_init h₀ = some (0, h) → Along World.step Allowed ⟨h, []⟩ acts →
    Along World.step ServesStep ⟨h, []⟩ acts := by
  intro hall
  have hallowed : Along World.step Allowed ⟨started, []⟩
      ([.call (.malloc 4096), .call (.malloc 16), .call (.malloc 16), .call (.malloc 16)] ++
        [.call (.realloc 4160 5000)]) := by
    apply along_of_check
    decide +kernel
  have hcheck : (exec World.step ⟨started, []⟩
      [.call (.malloc 4096), .call (.malloc 16), .call (.malloc 16), .call (.malloc 16)]).any
      (fun w => decide (w.heap.TR = 1 ∧ GET_SIZE w.heap (HDRP 4160) = some 4104 ∧
        NEXT_BLKP w.heap 4160 = some 8264 ∧ fits w.heap 8264 904 = some false)) = true := by
    decide +kernel
  obtain ⟨w, hw, hc⟩ := (Option.any_eq_true _ _).mp hcheck
  obtain ⟨hT, hsize, hnext, hfit⟩ := of_decide_eq_true hc
  have hserves := hall emptyHeap started _ emptyHeap_fresh mm_init_started hallowed _ _ [] w rfl hw
  obtain ⟨q, hq, -, -, hfree⟩ := hserves.grows 4160 5000 4104 rfl hT (by decide) (by decide)
    (by decide) hsize (by decide)
  rw [hnext, Option.some.injEq] at hq
  subst hq
  have h904 : roundUp 5000 - 4104 = 904 := by decide
  rw [h904, hfit] at hfree
  cases hfree

end ics_labs.mm
