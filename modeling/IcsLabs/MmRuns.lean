-- The allocator and its caller over whole runs. The caller holds the pointers it was
-- given, frees and reallocates only those, and writes what it likes into their bytes.
import IcsLabs.MmFirst
import IcsLabs.Runs

open ics_labs.byte_words ics_labs.boundary_tags ics_labs.runs

namespace ics_labs.mm

/-- The heap, and the pointers that the caller holds with the sizes it asked for. -/
structure World where
  heap : Heap
  live : List (Nat × Nat)

/-- What the caller does: it calls the allocator, or it writes a byte. -/
inductive Act where
  | call (c : Call)
  | write (a : Nat) (b : Byte)

/-- The caller no longer holds `p`. -/
def drop (p : Nat) (live : List (Nat × Nat)) : List (Nat × Nat) := live.filter fun e => e.1 ≠ p

def World.step (w : World) : Act → Option World
  | .call (.malloc size) => do
    let (q, h) ← mm_malloc w.heap size
    return ⟨h, if q = 0 then w.live else (q, size) :: w.live⟩
  | .call (.free p) => do
    let h ← mm_free w.heap p
    return ⟨h, drop p w.live⟩
  | .call (.realloc p size) => do
    let (q, h) ← mm_realloc w.heap p size
    return ⟨h, if size = 0 then drop p w.live else if q = 0 then w.live
      else (q, size) :: drop p w.live⟩
  | .write a b => some ⟨{ w.heap with contents := Function.update w.heap.contents a b }, w.live⟩

/-- The caller keeps to its own pointers and bytes. -/
def Owns (w : World) : Act → Prop
  | .call (.malloc _) => True
  | .call (.free p) | .call (.realloc p _) => p ∈ w.live.map Prod.fst
  | .write a _ => ∃ e ∈ w.live, e.1 ≤ a ∧ a < e.1 + e.2

instance (w : World) (a : Act) : Decidable (Owns w a) :=
  match a with
  | .call (.malloc _) => inferInstanceAs (Decidable True)
  | .call (.free p) | .call (.realloc p _) =>
    inferInstanceAs (Decidable (p ∈ w.live.map Prod.fst))
  | .write a _ => inferInstanceAs (Decidable (∃ e ∈ w.live, e.1 ≤ a ∧ a < e.1 + e.2))

/-- The same, and no size is beyond what an `int` holds. -/
def Legal (w : World) : Act → Prop
  | .call (.malloc size) => size < 2 ^ 31 - 16
  | .call (.free p) => p ∈ w.live.map Prod.fst
  | .call (.realloc p size) => p ∈ w.live.map Prod.fst ∧ size < 2 ^ 31 - 16
  | .write a _ => ∃ e ∈ w.live, e.1 ≤ a ∧ a < e.1 + e.2

instance (w : World) (a : Act) : Decidable (Legal w a) :=
  match a with
  | .call (.malloc size) => inferInstanceAs (Decidable (size < 2 ^ 31 - 16))
  | .call (.free p) => inferInstanceAs (Decidable (p ∈ w.live.map Prod.fst))
  | .call (.realloc p size) =>
    inferInstanceAs (Decidable (p ∈ w.live.map Prod.fst ∧ size < 2 ^ 31 - 16))
  | .write a _ => inferInstanceAs (Decidable (∃ e ∈ w.live, e.1 ≤ a ∧ a < e.1 + e.2))

/-! ## What every run keeps -/

/-- The heap is well formed, and each pointer that the caller holds is a used block with
room for its bytes. Before the first request the heap is as `mm_init` left it. -/
structure Good (w : World) (bs : List Block) : Prop where
  wf : WellFormed w.heap bs
  nodup : (w.live.map Prod.fst).Nodup
  live : ∀ e ∈ w.live, ∃ k, Live w.heap bs e.1 k ∧ e.2 + 8 ≤ k
  first : w.heap.fmalloc = true → w.live = [] ∧ bs = [prologue, ⟨4096, false⟩] ∧
    w.heap.TR = 0 ∧ w.heap.Q_no = -1

section Good

variable {w : World} {bs bs' : List Block} {h' : Heap}

theorem Good.modes (g : Good w bs) (t : Nat) (q : Int) :
    Good ⟨{ w.heap with fmalloc := false, TR := t, Q_no := q }, w.live⟩ bs :=
  ⟨g.wf.modes false t q, g.nodup, g.live, fun hf => by cases hf⟩

theorem Good.end_moved (g : Good w bs) (e : Nat) : Good ⟨{ w.heap with end_ := e }, w.live⟩ bs :=
  ⟨g.wf.cursors w.heap.just e, g.nodup, g.live, g.first⟩

/-- A request without a result keeps the pointers that it does not take away. -/
theorem Good.served {gone : Nat → Prop} (g : Good w bs) (hs : Served w.heap h' bs bs' gone)
    {live' : List (Nat × Nat)} (hsub : live'.Sublist w.live) (hg : ∀ e ∈ live', ¬ gone e.1)
    (hf : h'.fmalloc = false) : Good ⟨h', live'⟩ bs' := by
  refine ⟨hs.wf, g.nodup.sublist (hsub.map _), ?_, fun h => absurd (hf.symm.trans h) (by decide)⟩
  intro e he
  obtain ⟨k, hk, hle⟩ := g.live e (hsub.subset he)
  exact ⟨k, hs.live g.wf.toTiled hk (hg e he), hle⟩

/-- A request that gives out a block adds its pointer to those that it keeps. -/
theorem Good.granted {gone : Nat → Prop} {q asize size : Nat} (g : Good w bs)
    (hg : Granted w.heap h' bs bs' gone q asize) (hn : ¬ gone (w.heap.behind []))
    {live' : List (Nat × Nat)} (hsub : live'.Sublist w.live) (hout : ∀ e ∈ live', ¬ gone e.1)
    (hf : h'.fmalloc = false) (hsize : size + 8 ≤ asize) : Good ⟨h', (q, size) :: live'⟩ bs' := by
  have hs := g.served hg.toServed hsub hout hf
  refine ⟨hs.wf, ?_, ?_, fun h => absurd (hf.symm.trans h) (by decide)⟩
  · simp only [List.map_cons, List.nodup_cons]
    refine ⟨?_, hs.nodup⟩
    -- The new block is not where a kept one is.
    intro hq
    obtain ⟨e, he, heq⟩ := List.mem_map.mp hq
    obtain ⟨k, hk, -⟩ := g.live e (hsub.subset he)
    rw [heq] at hk
    apply hout e he
    rw [heq]
    exact hg.fresh _ hk.blockAt rfl
  · intro e he
    rcases List.mem_cons.mp he with rfl | he
    · obtain ⟨k, hk, hl⟩ := hg.live_at g.wf hn
      exact ⟨k, hl, by simp only; omega⟩
    · exact hs.live e he

theorem drop_sublist (p : Nat) (live : List (Nat × Nat)) : (drop p live).Sublist live :=
  List.filter_sublist

theorem not_mem_drop {p : Nat} {live : List (Nat × Nat)} : ∀ e ∈ drop p live, ¬ e.1 = p := by
  intro e he
  simpa using (List.mem_filter.mp he).2

/-- A pointer that the caller holds is a live block. -/
theorem Good.holds {p : Nat} (g : Good w bs) (hp : p ∈ w.live.map Prod.fst) :
    (∃ k, Live w.heap bs p k) ∧ w.heap.fmalloc = false := by
  obtain ⟨e, he, rfl⟩ := List.mem_map.mp hp
  obtain ⟨k, hk, -⟩ := g.live e he
  refine ⟨⟨k, hk⟩, ?_⟩
  cases hf : w.heap.fmalloc with
  | false => rfl
  | true =>
    have := (g.first hf).1
    rw [this] at he
    cases he

/-- The caller may write into the bytes that it holds. -/
theorem Good.write {a : Nat} {b : Byte} (g : Good w bs) (hl : Owns w (.write a b)) :
    Good ⟨{ w.heap with contents := Function.update w.heap.contents a b }, w.live⟩ bs := by
  obtain ⟨e, he, h1, h2⟩ := hl
  obtain ⟨k, ⟨l, r, hbs, -, hp⟩, hle⟩ := g.live e he
  have hed : Edits w.heap { w.heap with contents := Function.update w.heap.contents a b }
      (w.heap.behind l) e.2 := by
    apply Edits.contents
    intro x hx
    exact Function.update_of_ne (by omega) _ _
  have hw : Tiled { w.heap with contents := Function.update w.heap.contents a b } bs := by
    have ht := g.wf.toTiled
    rw [hbs] at ht ⊢
    exact ht.payload hle hed
  exact ⟨⟨hw, g.wf.spaced⟩, g.nodup, g.live, g.first⟩

end Good

/-! ## General mode -/

/-- The first request of a size other than 0 does not choose a trace mode. -/
def Plain (w : World) : Act → Prop
  | .call (.malloc size) => w.heap.fmalloc = true → size ≠ TR1 ∧ size ≠ TR2 ∧ size ≠ TR3
  | _ => True

instance (w : World) (a : Act) : Decidable (Plain w a) :=
  match a with
  | .call (.malloc size) => inferInstanceAs (Decidable (w.heap.fmalloc = true →
      size ≠ TR1 ∧ size ≠ TR2 ∧ size ≠ TR3))
  | .call (.free _) | .call (.realloc _ _) | .write _ _ => inferInstanceAs (Decidable True)

/-- No block grows in place over the cursor. -/
def SparesJust (w : World) : Act → Prop
  | .call (.realloc p size) => size ≠ 0 → swallows w.heap p size = false
  | _ => True

instance (w : World) (a : Act) : Decidable (SparesJust w a) :=
  match a with
  | .call (.realloc p size) =>
    inferInstanceAs (Decidable (size ≠ 0 → swallows w.heap p size = false))
  | .call (.malloc _) | .call (.free _) | .write _ _ => inferInstanceAs (Decidable True)

/-- A block fits, or what is lacking comes whole to `mem_sbrk`. -/
def AsksWhole (h : Heap) (asize : Nat) : Prop :=
  Room h asize ∨ ¬ CutShort h (lacks (h.blocks.map Prod.snd) asize)

instance (h : Heap) (asize : Nat) : Decidable (AsksWhole h asize) :=
  inferInstanceAs (Decidable (_ ∨ _))

/-- A size is rounded up without a wrap, and no part of a request is lost on its way to
`mem_sbrk`. -/
def Uncut (w : World) : Act → Prop
  | .call (.malloc size) | .call (.realloc _ size) =>
    size < 2 ^ 64 - 15 ∧ AsksWhole w.heap (roundUp size)
  | .call (.free _) | .write _ _ => True

instance (w : World) (a : Act) : Decidable (Uncut w a) :=
  match a with
  | .call (.malloc size) | .call (.realloc _ size) =>
    inferInstanceAs (Decidable (size < 2 ^ 64 - 15 ∧ AsksWhole w.heap (roundUp size)))
  | .call (.free _) | .write _ _ => inferInstanceAs (Decidable True)

/-- A run in general mode, with `just` at a block or not. -/
structure GoodGeneral (w : World) (bs : List Block) : Prop extends Good w bs where
  TR : w.heap.TR = 0

section General

variable {w w' : World} {bs : List Block}

/-- The first request is served as all others are. -/
theorem mm_malloc_first {h : Heap} {size : Nat} (hf : h.fmalloc = true) (h0 : size ≠ 0)
    (h1 : size ≠ TR1) (h2 : size ≠ TR2) (h3 : size ≠ TR3) :
    mm_malloc h size = mm_malloc { h with fmalloc := false } size := by
  unfold mm_malloc
  simp only
  rw [if_neg h0, if_neg h0, if_pos hf, if_neg h3, if_neg h1, if_neg h2, if_neg (by simp)]

/-- What the walk over a heap says, in terms of its blocks. -/
theorem whole_of_asks {h : Heap} {size : Nat} (hw : WellFormed h bs) (hlt : size < 2 ^ 64 - 15)
    (ha : AsksWhole h (roundUp size)) : Whole h bs size := by
  unfold AsksWhole at ha
  rw [room_iff hw.toTiled, blocks_snd hw.toTiled] at ha
  exact ⟨hlt, ha⟩

/-- `mm_free` of a pointer that the caller holds. -/
theorem GoodGeneral.frees {p : Nat} (g : GoodGeneral w bs) (hj : JustAt w.heap bs)
    (hp : p ∈ w.live.map Prod.fst) : ∃ h' bs', mm_free w.heap p = some h' ∧
      GoodGeneral ⟨h', drop p w.live⟩ bs' ∧ JustAt h' bs' := by
  obtain ⟨⟨n, hn⟩, hf⟩ := g.holds hp
  obtain ⟨h', bs', hrun, hsv, hj', -⟩ := mm_free_spec g.wf hn
  have hgood := g.served hsv (drop_sublist p _) not_mem_drop (hsv.fmalloc.trans hf)
  exact ⟨h', bs', hrun, ⟨hgood, hsv.TR.trans g.TR⟩, hj' hj⟩

/-- A step in general mode from a heap with `just` at a block. -/
theorem general_step {a : Act} (g : GoodGeneral w bs) (hj : JustAt w.heap bs) (hl : Owns w a)
    (hp : Plain w a) (hu : Uncut w a) (hs : w.step a = some w') :
    ∃ bs', GoodGeneral w' bs' ∧ (SparesJust w a → JustAt w'.heap bs') := by
  cases a with
  | write a b =>
    cases hs
    exact ⟨bs, ⟨g.toGood.write hl, g.TR⟩, fun _ => hj⟩
  | call c =>
    cases c with
    | malloc size =>
      change (mm_malloc w.heap size).bind (fun v => some (⟨v.2, if v.1 = 0 then w.live else
        (v.1, size) :: w.live⟩ : World)) = some w' at hs
      by_cases h0 : size = 0
      · subst h0
        cases hs
        exact ⟨bs, g, fun _ => hj⟩
      · have hm : mm_malloc w.heap size = mm_malloc { w.heap with fmalloc := false } size := by
          cases hf : w.heap.fmalloc with
          | true =>
            obtain ⟨h1, h2, h3⟩ := hp hf
            exact mm_malloc_first hf h0 h1 h2 h3
          | false =>
            rw [show { w.heap with fmalloc := false } = w.heap by rw [← hf]]
        have g' : Good ⟨{ w.heap with fmalloc := false }, w.live⟩ bs :=
          g.toGood.modes w.heap.TR w.heap.Q_no
        have hj' : JustAt { w.heap with fmalloc := false } bs := hj
        rw [hm] at hs
        obtain ⟨hlt, ha⟩ := hu
        have hwh : Whole { w.heap with fmalloc := false } bs size :=
          ⟨hlt, (whole_of_asks g.wf hlt ha).uncut⟩
        rcases mm_malloc_spec g'.wf hj' g.TR rfl h0 hwh with
          ⟨e, hrun⟩ | ⟨q, h', bs', hrun, hq, hg, hj''⟩
        · rw [hrun] at hs
          cases hs
          exact ⟨bs, ⟨g'.end_moved e, g.TR⟩, fun _ => hj⟩
        · rw [hrun, Option.bind_some, if_neg hq] at hs
          cases hs
          have hr := (roundUp_spec hlt).1
          exact ⟨bs', ⟨g'.granted hg (by simp) (List.Sublist.refl _) (by simp) hg.fmalloc hr,
            hg.TR.trans g.TR⟩, fun _ => hj''⟩
    | free p =>
      change (mm_free w.heap p).bind (fun h => some (⟨h, drop p w.live⟩ : World)) = some w' at hs
      obtain ⟨h', bs', hrun, g', hj'⟩ := g.frees hj hl
      rw [hrun] at hs
      cases hs
      exact ⟨bs', g', fun _ => hj'⟩
    | realloc p size =>
      change (mm_realloc w.heap p size).bind (fun v => some (⟨v.2, if size = 0 then drop p w.live
        else if v.1 = 0 then w.live else (v.1, size) :: drop p w.live⟩ : World)) = some w' at hs
      obtain ⟨⟨n, hn⟩, hf⟩ := g.holds hl
      by_cases h0 : size = 0
      · subst h0
        obtain ⟨h', bs', hrun, g', hj'⟩ := g.frees hj hl
        rw [mm_realloc_zero hn, hrun] at hs
        cases hs
        exact ⟨bs', g', fun _ => hj'⟩
      · obtain ⟨hlt, ha⟩ := hu
        rcases mm_realloc_spec g.wf hj g.TR hf hn h0 (whole_of_asks g.wf hlt ha) with
          ⟨e, hrun⟩ | ⟨q, h', bs', hrun, hq, hg, -, hj'⟩
        · rw [hrun, Option.bind_some, if_neg h0, if_pos rfl] at hs
          cases hs
          exact ⟨bs, ⟨g.toGood.end_moved e, g.TR⟩, fun _ => hj⟩
        · rw [hrun, Option.bind_some, if_neg h0, if_neg hq] at hs
          cases hs
          have hr := (roundUp_spec hlt).1
          have hne : ¬ w.heap.behind [] = p := fun he => ((live_iff g.wf.toTiled).mp hn).2 he.symm
          exact ⟨bs', ⟨g.granted hg hne (drop_sublist p _) not_mem_drop (hg.fmalloc.trans hf) hr,
            hg.TR.trans g.TR⟩, fun hsp => hj' (hsp h0)⟩

end General

/-- The world behind a successful `mm_init`. -/
theorem good_init {h₀ h : Heap} (hf : Fresh h₀) (hi : mm_init h₀ = some (0, h)) :
    GoodGeneral ⟨h, []⟩ [prologue, ⟨4096, false⟩] ∧ JustAt h [prologue, ⟨4096, false⟩] := by
  obtain ⟨h', hrun, hw, hj, h1, h2, h3, -⟩ := mm_init_spec hf
  rw [hrun] at hi
  cases hi
  exact ⟨⟨⟨hw, List.nodup_nil, by simp, fun _ => ⟨rfl, rfl, h2, h3⟩⟩, h2⟩, hj⟩

/-- What a run in general mode keeps while no block grows over the cursor. -/
theorem general_run {h₀ h : Heap} (hf : Fresh h₀) (hi : mm_init h₀ = some (0, h))
    {acts : List Act}
    (hC : Along World.step (fun w a => (Owns w a ∧ Plain w a) ∧ Uncut w a ∧ SparesJust w a)
      ⟨h, []⟩ acts) :
    Reaches World.step (fun w => ∃ bs, GoodGeneral w bs ∧ JustAt w.heap bs) ⟨h, []⟩ acts := by
  have hstep : ∀ (w : World) (a : Act) (w' : World),
      (∃ bs, GoodGeneral w bs ∧ JustAt w.heap bs) →
      (Owns w a ∧ Plain w a) ∧ Uncut w a ∧ SparesJust w a →
      w.step a = some w' → ∃ bs, GoodGeneral w' bs ∧ JustAt w'.heap bs := by
    rintro w a w' ⟨bs, g, hj⟩ ⟨⟨hl, hp⟩, hu, hsp⟩ hs
    obtain ⟨bs', g', hj'⟩ := general_step g hj hl hp hu hs
    exact ⟨bs', g', hj' hsp⟩
  obtain ⟨g, hj⟩ := good_init hf hi
  exact reaches_invariant hstep ⟨_, g, hj⟩ hC

/-! ## The law of the cursor -/

/-- In every run in general mode in which no part of a size is lost and no block grows in
place over the cursor, `just` is at a block after every call. -/
theorem just_stays_at_a_block {h₀ h : Heap} (hf : Fresh h₀) (hi : mm_init h₀ = some (0, h))
    (acts : List Act)
    (hC : Along World.step (fun w a => (Owns w a ∧ Plain w a) ∧ Uncut w a ∧ SparesJust w a)
      ⟨h, []⟩ acts) :
    Reaches World.step (fun w => AtBlock w.heap w.heap.just) ⟨h, []⟩ acts := by
  intro js ks w hjs hw
  obtain ⟨bs, g, hj⟩ := general_run hf hi hC js ks w hjs hw
  exact (atBlock_iff g.wf.toTiled).mpr hj

/-- An empty heap at 4096. -/
def emptyHeap : Heap where
  contents := fun _ => 0
  mem_start_brk := 4096
  mem_brk := 4096
  heap_listp := 0
  just := 0
  end_ := 0
  fmalloc := false
  TR := 0
  Q_no := 0

theorem emptyHeap_fresh : Fresh emptyHeap := by
  refine ⟨rfl, by decide, by decide, ?_⟩
  show 4096 + MAX_HEAP < 2 ^ 64
  unfold MAX_HEAP
  omega

/-- The heap after `mm_init` at 4096. -/
def started : Heap := ((mm_init emptyHeap).getD (0, emptyHeap)).2

theorem mm_init_started : mm_init emptyHeap = some (0, started) := by
  obtain ⟨h', hrun, -⟩ := mm_init_spec emptyHeap_fresh
  unfold started
  rw [hrun]
  rfl

/-- The first block grows over the free one behind it while `just` is at a third one, and
then 2^33 - 2^20 bytes are asked for, which `mem_sbrk` refuses. -/
def growsBesideJust : List Act :=
  [.call (.malloc 32), .call (.malloc 32), .call (.malloc 16), .write 4112 7, .call (.free 4152),
    .call (.realloc 4112 64), .call (.malloc (2 ^ 33 - 2 ^ 20))]

theorem just_stays_beside_a_grown_block :
    Reaches World.step (fun w => AtBlock w.heap w.heap.just) ⟨started, []⟩ growsBesideJust := by
  apply just_stays_at_a_block emptyHeap_fresh mm_init_started
  apply along_of_check
  decide +kernel

/-- Two blocks, and the second is freed again: `just` is at the free block behind the
first. -/
def freeBehindFirst : List Act :=
  [.call (.malloc 32), .call (.malloc 32), .call (.free 4152)]

def growFirst : Act := .call (.realloc 4112 64)

/-- The first block then grows over the free block and `just`, which stays inside it. -/
theorem a_growing_block_swallows_just : ¬ ∀ (h₀ h : Heap) (acts : List Act), Fresh h₀ →
    mm_init h₀ = some (0, h) →
    Along World.step (fun w a => Owns w a ∧ Plain w a) ⟨h, []⟩ acts →
    Reaches World.step (fun w => AtBlock w.heap w.heap.just) ⟨h, []⟩ acts := by
  intro hall
  have howns : Along World.step (fun w a => Owns w a ∧ Plain w a) ⟨started, []⟩
      (freeBehindFirst ++ [growFirst]) := by
    apply along_of_check
    decide +kernel
  have hspared : Along World.step
      (fun w a => (Owns w a ∧ Plain w a) ∧ Uncut w a ∧ SparesJust w a)
      ⟨started, []⟩ freeBehindFirst := by
    apply along_of_check
    decide +kernel
  have hcheck : (exec World.step ⟨started, []⟩ (freeBehindFirst ++ [growFirst])).any
      (fun w => decide (mm_check w.heap = some (.error .pointer_is_invalid))) = true := by
    decide +kernel
  obtain ⟨w, hw, hc⟩ := (Option.any_eq_true _ _).mp hcheck
  obtain ⟨v, hv, hs⟩ := exec_snoc.mp hw
  obtain ⟨bs, g, hj⟩ := general_run emptyHeap_fresh mm_init_started hspared freeBehindFirst [] v
    (List.append_nil _).symm hv
  have hlast := howns freeBehindFirst growFirst [] v rfl hv
  have hwhole : Along World.step Uncut ⟨started, []⟩ (freeBehindFirst ++ [growFirst]) := by
    apply along_of_check
    decide +kernel
  obtain ⟨bs', g', -⟩ := general_step g hj hlast.1 hlast.2
    (hwhole freeBehindFirst growFirst [] v rfl hv) hs
  -- `mm_check` finds that `just` is at no block.
  have hat := hall emptyHeap started _ emptyHeap_fresh mm_init_started howns
    (freeBehindFirst ++ [growFirst]) [] w (List.append_nil _).symm hw
  have hok := mm_check_accepts g'.wf ((atBlock_iff g'.wf.toTiled).mp hat)
  rw [of_decide_eq_true hc] at hok
  simp at hok

end ics_labs.mm
